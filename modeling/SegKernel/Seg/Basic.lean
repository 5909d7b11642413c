import SegKernel.Exp.Basic
import SegKernel.Table

/-! Descriptors of segmented operations: maps, reductions, scans and histograms over iteration
    spaces, with the grid of threads that is to run them, and the host environment around them. -/

namespace SegKernel

/-- The bytes of a source text from which something was read. -/
structure Span where
  start : Nat
  stop : Nat
deriving DecidableEq

/-- An operand that is a constant or a variable. -/
inductive Operand
  | const (v : Value)
  | var (name : Ident)
deriving DecidableEq

namespace Operand

def int (v : Int64) : Operand := const (.i64 v)

def toExp : Operand → Exp
  | const v => .const v
  | var name => .var name

def int? : Operand → Option Int64
  | const (.i64 v) => some v
  | _ => none

end Operand

/-- Whether the points of an operation are run by threads or by groups. -/
inductive Level
  | thread
  | group
deriving DecidableEq

/-- How a grid covers a space. Without virtualization there are enough threads for all points. With
    it each thread or group visits several points; in a full space these fill all groups exactly, so
    no point has to be guarded. -/
inductive Coverage
  | direct
  | virtualize
  | full
deriving DecidableEq

/-- The grid of threads of an operation. -/
structure Grid where
  level : Level
  numGroups : Operand
  groupSize : Operand
  coverage : Coverage
deriving DecidableEq

/-- An iteration space: an index and an extent for each dimension, and a name for the flat index. -/
structure IterationSpace where
  flat : Ident
  dims : List (Ident × Operand)
deriving DecidableEq

namespace IterationSpace

def rank (s : IterationSpace) : Nat := s.dims.length
def indices (s : IterationSpace) : List Ident := s.dims.map (·.1)
def indexExps (s : IterationSpace) : List Exp := s.dims.map (.var ·.1)
def shape (s : IterationSpace) : List Operand := s.dims.map (·.2)
def dimExps (s : IterationSpace) : List Exp := s.dims.map (·.2.toExp)

/-- The number of points. -/
def size (s : IterationSpace) : Exp := .product s.dimExps

end IterationSpace

structure Param where
  name : Ident
  type : ScalarType
deriving DecidableEq

/-- A combining operator on tuples of `k` components: `2k` parameters, those of the left tuple first,
    and `k` results. -/
structure Lambda where
  params : List Param
  results : List Exp
  span : Option Span := none

namespace Lambda

/-- Where a lambda was written does not matter. -/
instance : BEq Lambda := ⟨fun a b => a.params == b.params && a.results == b.results⟩

def arity (l : Lambda) : Nat := l.results.length

/-- The parameters of the left tuple. -/
def left (l : Lambda) : List Param := l.params.take l.arity

/-- The parameters of the right tuple. -/
def right (l : Lambda) : List Param := l.params.drop l.arity

def resultTypes (l : Lambda) : List ScalarType := l.left.map (·.type)

/-- Both tuples have one parameter for each result, of the same types. -/
def isWellFormed (l : Lambda) : Bool :=
  l.params.length == 2 * l.results.length && (l.left.zip l.right).all fun (x, y) => x.type == y.type

/-- What the parameters stand for in an application; the last parameter of a name counts. -/
def substitution (l : Lambda) (xs ys : List Exp) : Ident → Option Exp := fun name =>
  (((l.left.zip xs) ++ (l.right.zip ys)).reverse.find? (·.1.name == name)).map (·.2)

/-- The results with the parameters replaced by the operands, all at the same time. -/
def apply (l : Lambda) (xs ys : List Exp) : List Exp :=
  l.results.map (·.substitute (l.substitution xs ys))

/-- The lambda of one component that applies an operator. -/
def ofOperator (op : BinaryOp) (type : ScalarType) : Lambda where
  params := [⟨"x", type⟩, ⟨"y", type⟩]
  results := [.apply op (.var "x") (.var "y")]

end Lambda

/-- The operator of a reduction or a scan. With a nonempty shape each component is an array of that
    shape, which is combined lane by lane. -/
structure Combiner where
  lambda : Lambda
  neutral : List Operand
  shape : List Operand := []
  commutative : Bool := false
deriving BEq

namespace Combiner

def isScalar (c : Combiner) : Bool := c.shape.isEmpty

/-- The number of lanes. -/
def lanes (c : Combiner) : Exp := .product (c.shape.map Operand.toExp)

end Combiner

/-- The operator of a histogram. A destination has the extents `outerShape` and then `width` buckets. -/
structure Histogram where
  width : Operand
  outerShape : List Operand
  neutral : List Operand
  lambda : Lambda
  dests : List Ident
deriving BEq

def Histogram.destShape (h : Histogram) : List Operand := h.outerShape ++ [h.width]

/-- How concatenated results lie in the destination: the elements of a thread next to each other, or
    a stride apart. -/
inductive Split
  | contiguous
  | strided (stride : Operand)
deriving DecidableEq

inductive BodyResult
  /-- One value for each point. -/
  | returns (value : Operand)
  /-- The tile that a group makes; each dimension has an extent and a tile size. -/
  | tile (tiles : List (Operand × Operand)) (array : Ident)
  /-- Values for places in a destination of the given extents. -/
  | write (shape : List Operand) (writes : List (List Operand × Operand))
  /-- Several elements for each thread. -/
  | concat (split : Split) (perThread : Operand) (array : Ident)
deriving DecidableEq

/-- A name that an operation binds, with its element type and its extents. -/
structure PatElem where
  name : Ident
  type : ScalarType
  shape : List Operand := []
deriving DecidableEq

inductive SegKind
  | map
  | scan (ops : List Combiner)
  | reduce (ops : List Combiner)
  | histogram (ops : List Histogram)
deriving BEq

def SegKind.name : SegKind → String
  | map => "segmap"
  | scan _ => "segscan"
  | reduce _ => "segred"
  | histogram _ => "seghist"

/-- A segmented operation whose body consists of statements of type `σ`. The body's results are first
    the contributions to the operators (for a histogram the buckets and then the values), then the
    mapped results. -/
structure Segmented (σ : Type) where
  kind : SegKind
  grid : Grid
  space : IterationSpace
  stms : List σ
  results : List BodyResult
  span : Option Span := none

inductive BodyStm
  | compute (name : Ident) (type : ScalarType) (value : Exp)
  /-- Reads an element of an array in scope. -/
  | index (name : Ident) (type : ScalarType) (array : Ident) (index : List Exp)
  /-- A small array of each thread. -/
  | arrayLit (name : Ident) (type : ScalarType) (elems : List Operand)
  /-- An operation that the threads of a group run together. -/
  | nested (pattern : List PatElem) (op : Segmented BodyStm)

abbrev SegOp := Segmented BodyStm

/-! ### Equality and traversal of nested operations -/

mutual

def BodyStm.same : BodyStm → BodyStm → Bool
  | .compute n t e, .compute n' t' e' => n == n' && t == t' && e == e'
  | .index n t a is, .index n' t' a' is' => n == n' && t == t' && a == a' && is == is'
  | .arrayLit n t es, .arrayLit n' t' es' => n == n' && t == t' && es == es'
  | .nested p op, .nested p' op' => p == p' && Segmented.same op op'
  | _, _ => false

/-- Equality of operations, up to the places of lambdas in the source. -/
def Segmented.same : SegOp → SegOp → Bool
  | ⟨k, g, s, stms, rs, sp⟩, ⟨k', g', s', stms', rs', sp'⟩ =>
    k == k' && g == g' && s == s' && BodyStm.allSame stms stms' && rs == rs' && sp == sp'

def BodyStm.allSame : List BodyStm → List BodyStm → Bool
  | [], [] => true
  | b :: bs, c :: cs => b.same c && BodyStm.allSame bs cs
  | _, _ => false

end

mutual

def BodyStm.ops : BodyStm → List SegOp
  | .nested _ op => Segmented.ops op
  | _ => []

/-- An operation and all operations in it, the outer before the nested. -/
def Segmented.ops : SegOp → List SegOp
  | ⟨k, g, s, stms, rs, sp⟩ => ⟨k, g, s, stms, rs, sp⟩ :: BodyStm.allOps stms

def BodyStm.allOps : List BodyStm → List SegOp
  | [] => []
  | b :: bs => b.ops ++ BodyStm.allOps bs

end

/-! ### Modules -/

/-- What a host runs. -/
inductive HostOp
  | seg (pattern : List PatElem) (op : SegOp)
  | replicate (dest : Ident) (value : Operand)
  | iota (dest : Ident) (start step : Operand)
  | copy (dest source : Ident)

namespace HostOp

def same : HostOp → HostOp → Bool
  | seg p op, seg p' op' => p == p' && op.same op'
  | replicate d v, replicate d' v' => d == d' && v == v'
  | iota d a b, iota d' a' b' => d == d' && a == a' && b == b'
  | copy d s, copy d' s' => d == d' && s == s'
  | _, _ => false

/-- The operation without its place in the source. -/
def withoutSpan : HostOp → HostOp
  | seg p op => seg p { op with span := none }
  | op => op

def ops : HostOp → List SegOp
  | seg _ op => op.ops
  | _ => []

instance : BEq HostOp := ⟨same⟩

end HostOp

/-- What the host makes available to kernels. -/
structure HostEnv where
  arrays : Table (ScalarType × List Operand) := {}
  scalars : Table ScalarType := {}
  constants : Table Value := {}
deriving BEq

/-- Whether an operand is known before any kernel runs. -/
def HostEnv.isInvariant (env : HostEnv) : Operand → Bool
  | .const _ => true
  | .var name => env.scalars.contains name || env.constants.contains name

/-- A descriptor file: declarations and operations. -/
structure Module where
  env : HostEnv := {}
  ops : List HostOp := []
deriving BEq

def Module.withoutSpans (m : Module) : Module := { m with ops := m.ops.map HostOp.withoutSpan }

end SegKernel
