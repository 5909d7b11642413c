import SegKernel.Proofs.Reading.Expressions
import SegKernel.Syntax.Parse

/-! # How descriptors are written

The words of a module in the syntax of files: its declarations and then its operations. Expressions are
fully parenthesized, and the kind and the level of an operation are one word. A module can be written
when its names are names, its constants are Booleans or integers, and the lists that the syntax cannot
leave empty are not. A text does not show where it was read from, so modules are compared without the
places of their operations and lambdas. -/

namespace SegKernel
open SegKernel.Syntax

/-! ### Shared syntax -/

/-- A list in brackets. -/
def bracketWords (ts : List (List String)) : List String := "[" :: (commas ts ++ ["]"])

/-- Several elements in parentheses, or a single one without. -/
def tupleWords : List (List String) → List String
  | [t] => t
  | ts => "(" :: (commas ts ++ [")"])

def operandWords (os : List Operand) : List (List String) := os.map fun o => [o.word]

def Operand.isWritable (o : Operand) : Bool := decide o.IsPlain

/-! ### Patterns, grids and spaces -/

def shapeWords (shape : List Operand) : List String := shape.flatMap fun d => ["[", d.word, "]"]

def PatElem.words (p : PatElem) : List String := p.name :: ":" :: (shapeWords p.shape ++ [p.type.name])

def PatElem.isWritable (p : PatElem) : Bool := decide (IsName p.name) && p.shape.all Operand.isWritable

def patternWords (pattern : List PatElem) : List String := commas (pattern.map PatElem.words)

def patternIsWritable (pattern : List PatElem) : Bool := !pattern.isEmpty && pattern.all PatElem.isWritable

def Level.word : Level → String
  | .thread => "thread"
  | .group => "group"

def Coverage.words : Coverage → List String
  | .direct => []
  | .virtualize => ["virtualize"]
  | .full => ["full"]

/-- The sizes and the coverage of a grid. -/
def Grid.words (g : Grid) : List String :=
  "(" :: g.numGroups.word :: "," :: g.groupSize.word :: ")" :: g.coverage.words

def Grid.isWritable (g : Grid) : Bool := g.numGroups.isWritable && g.groupSize.isWritable

def dimWords (d : Ident × Operand) : List String := [d.1, "<", d.2.word]

def IterationSpace.words (s : IterationSpace) : List String :=
  s.flat :: "(" :: (commas (s.dims.map dimWords) ++ [")"])

def IterationSpace.isWritable (s : IterationSpace) : Bool :=
  decide (IsName s.flat) && s.dims.all fun d => decide (IsName d.1) && d.2.isWritable

/-! ### Operators -/

def Param.words (p : Param) : List String := [p.name, ":", p.type.name]

def Lambda.words (l : Lambda) : List String :=
  "\\" :: (commas (l.params.map Param.words) ++ "->" :: tupleWords (l.results.map fun e => e.words true 0))

def Lambda.isWritable (l : Lambda) : Bool :=
  l.params.all (fun p => decide (IsName p.name)) && !l.results.isEmpty && l.results.all Exp.isWritable

/-- A shape that is left out when it is empty. -/
def optionalShapeWords (shape : List Operand) : List String :=
  if shape.isEmpty then [] else bracketWords (operandWords shape)

def Combiner.words (c : Combiner) : List String :=
  (if c.commutative then ["commutative"] else []) ++ "op" :: (optionalShapeWords c.shape ++
    "(" :: (c.lambda.words ++ ";" :: (tupleWords (operandWords c.neutral) ++ [")"])))

def Combiner.isWritable (c : Combiner) : Bool :=
  c.lambda.isWritable && !c.neutral.isEmpty && c.neutral.all Operand.isWritable && c.shape.all Operand.isWritable

def Histogram.words (h : Histogram) : List String :=
  "hist" :: (optionalShapeWords h.outerShape ++ "(" :: h.width.word :: ";" :: (commas (h.dests.map fun d => [d]) ++
    ";" :: (h.lambda.words ++ ";" :: (tupleWords (operandWords h.neutral) ++ [")"]))))

def Histogram.isWritable (h : Histogram) : Bool :=
  h.width.isWritable && h.outerShape.all Operand.isWritable && !h.neutral.isEmpty && h.neutral.all Operand.isWritable &&
    h.lambda.isWritable && !h.dests.isEmpty && h.dests.all fun d => decide (IsName d)

/-- The operators of an operation. -/
def SegKind.words : SegKind → List String
  | .map => []
  | .scan ops | .reduce ops => bracketWords (ops.map Combiner.words)
  | .histogram ops => bracketWords (ops.map Histogram.words)

def SegKind.isWritable : SegKind → Bool
  | .map => true
  | .scan ops | .reduce ops => ops.all Combiner.isWritable
  | .histogram ops => ops.all Histogram.isWritable

/-! ### Results -/

def tileWords (t : Operand × Operand) : List String := [t.1.word, "/", t.2.word]

def writeWords (w : List Operand × Operand) : List String := bracketWords (operandWords w.1) ++ ["=", w.2.word]

def Split.words : Split → List String
  | .contiguous => ["contiguous"]
  | .strided stride => ["strided", "(", stride.word, ")"]

def Split.isWritable : Split → Bool
  | .contiguous => true
  | .strided stride => stride.isWritable

def BodyResult.words : BodyResult → List String
  | .returns value => [value.word]
  | .tile tiles array => "tile" :: "(" :: (commas (tiles.map tileWords) ++ [";", array, ")"])
  | .write shape writes =>
    "write" :: (bracketWords (operandWords shape) ++ "(" :: (commas (writes.map writeWords) ++ [")"]))
  | .concat split perThread array => "concat" :: "(" :: (split.words ++ [",", perThread.word, ";", array, ")"])

def BodyResult.isWritable : BodyResult → Bool
  | .returns value => value.isWritable
  | .tile tiles array => tiles.all (fun t => t.1.isWritable && t.2.isWritable) && decide (IsName array)
  | .write shape writes =>
    shape.all Operand.isWritable && writes.all fun w => w.1.all Operand.isWritable && w.2.isWritable
  | .concat split perThread array => split.isWritable && perThread.isWritable && decide (IsName array)

/-! ### Bodies and operations -/

mutual

def BodyStm.words : BodyStm → List String
  | .compute name type value => "let" :: name :: ":" :: type.name :: "=" :: (value.words true 0 ++ [";"])
  | .index name type array index =>
    "let" :: name :: ":" :: type.name :: "=" :: array :: (bracketWords (index.map fun e => e.words true 0) ++ [";"])
  | .arrayLit name type elems =>
    "let" :: name :: ":" :: "[" :: toString elems.length :: "]" :: type.name :: "=" ::
      (bracketWords (operandWords elems) ++ [";"])
  | .nested pattern op => "let" :: (patternWords pattern ++ "=" :: (Segmented.words op ++ [";"]))

/-- The words of an operation. Its kind and its level are one word. -/
def Segmented.words : SegOp → List String
  | ⟨kind, grid, space, stms, results, _⟩ =>
    (kind.name ++ "@" ++ grid.level.word) :: (grid.words ++ (space.words ++ (kind.words ++
      "\x7b" :: (BodyStm.allWords stms ++ "return" :: (commas (results.map BodyResult.words) ++ ["\x7d"])))))

def BodyStm.allWords : List BodyStm → List String
  | [] => []
  | b :: bs => b.words ++ BodyStm.allWords bs

end

mutual

def BodyStm.isWritable : BodyStm → Bool
  | .compute name _ value => decide (IsName name) && value.isWritable
  | .index name _ array index => decide (IsName name) && decide (IsName array) && index.all Exp.isWritable
  | .arrayLit name _ elems => decide (IsName name) && elems.all Operand.isWritable
  | .nested pattern op => patternIsWritable pattern && Segmented.isWritable op

def Segmented.isWritable : SegOp → Bool
  | ⟨kind, grid, space, stms, results, _⟩ =>
    kind.isWritable && grid.isWritable && space.isWritable && BodyStm.allWritable stms &&
      results.all BodyResult.isWritable

def BodyStm.allWritable : List BodyStm → Bool
  | [] => true
  | b :: bs => b.isWritable && BodyStm.allWritable bs

end

/-! ### Files -/

def HostOp.words : HostOp → List String
  | .seg pattern op => "let" :: (patternWords pattern ++ "=" :: (op.words ++ [";"]))
  | .replicate dest value => [dest, "=", "replicate", "(", value.word, ")", ";"]
  | .iota dest start step => [dest, "=", "iota", "(", start.word, ",", step.word, ")", ";"]
  | .copy dest source => [dest, "=", "copy", "(", source, ")", ";"]

def HostOp.isWritable : HostOp → Bool
  | .seg pattern op => patternIsWritable pattern && op.isWritable
  | .replicate dest value => decide (IsName dest) && value.isWritable
  | .iota dest start step => decide (IsName dest) && start.isWritable && step.isWritable
  | .copy dest source => decide (IsName dest) && decide (IsName source)

namespace Syntax

def Item.words : Item → List String
  | .array name type shape => "array" :: name :: ":" :: (shapeWords shape ++ [type.name, ";"])
  | .scalar name type => ["scalar", name, ":", type.name, ";"]
  | .constant name value => ["const", name, ":", value.type.name, "=", value.word, ";"]
  | .op o => o.words

def Item.isWritable : Item → Bool
  | .array name _ shape => decide (IsName name) && shape.all Operand.isWritable
  | .scalar name _ => decide (IsName name)
  | .constant name value => decide (IsName name) && decide value.IsDiscrete
  | .op o => o.isWritable

end Syntax

namespace Module

/-- The declarations and operations of a module. -/
def items (m : Module) : List Item :=
  m.env.arrays.toList.map (fun (name, type, shape) => .array name type shape) ++
    m.env.scalars.toList.map (fun (name, type) => .scalar name type) ++
    m.env.constants.toList.map (fun (name, value) => .constant name value) ++ m.ops.map .op

def words (m : Module) : List String := m.items.flatMap Item.words

/-- Whether what the operations bind is declared. -/
def declaresDests (m : Module) : Bool :=
  m.ops.all fun
    | .seg pattern _ => pattern.all fun p => m.env.arrays.contains p.name
    | _ => true

def isWritable (m : Module) : Bool := m.items.all Item.isWritable && m.declaresDests

end Module

/-! ### Without places -/

def Lambda.unplaced (l : Lambda) : Lambda := { l with span := none }

def Combiner.unplaced (c : Combiner) : Combiner := { c with lambda := c.lambda.unplaced }

def Histogram.unplaced (h : Histogram) : Histogram := { h with lambda := h.lambda.unplaced }

def SegKind.unplaced : SegKind → SegKind
  | .map => .map
  | .scan ops => .scan (ops.map Combiner.unplaced)
  | .reduce ops => .reduce (ops.map Combiner.unplaced)
  | .histogram ops => .histogram (ops.map Histogram.unplaced)

mutual

def BodyStm.unplaced : BodyStm → BodyStm
  | .nested pattern op => .nested pattern (Segmented.unplaced op)
  | b => b

/-- An operation without its place in the source, and those of the lambdas and operations in it. -/
def Segmented.unplaced : SegOp → SegOp
  | ⟨kind, grid, space, stms, results, _⟩ =>
    ⟨kind.unplaced, grid, space, BodyStm.allUnplaced stms, results, none⟩

def BodyStm.allUnplaced : List BodyStm → List BodyStm
  | [] => []
  | b :: bs => b.unplaced :: BodyStm.allUnplaced bs

end

def HostOp.unplaced : HostOp → HostOp
  | .seg pattern op => .seg pattern op.unplaced
  | o => o

def Module.unplaced (m : Module) : Module := { m with ops := m.ops.map HostOp.unplaced }

end SegKernel
