import SegKernel.Syntax.Expression

/-! The syntax of descriptor files: declarations of arrays, scalars and constants, and host
    operations. -/

namespace SegKernel.Syntax
open SegKernel.Syntax.Parser

/-! ### Patterns -/

/-- Reads extents in brackets before an element type, each followed by blanks. -/
def shape : Parser (List Operand) :=
  many do
    token "["
    skip
    let d ← simpleOperand
    skip
    token "]"
    skip
    return d

def patElem : Parser PatElem := do
  let name ← identifier
  mark ":"
  let shape ← shape
  let type ← scalarType
  return { name, type, shape }

def pattern : Parser (List PatElem) := separated1 patElem (mark ",")

/-! ### The parts of an operation -/

/-- Reads a list in brackets. -/
def bracketed {α : Type} (p : Parser α) : Parser α := do
  token "["
  skip
  let a ← p
  skip
  token "]"
  return a

def level : Parser Level :=
  (do token "thread"; return .thread) <|> (do token "group"; return .group)

def coverage : Parser Coverage :=
  (do word "virtualize"; return .virtualize) <|> (do word "full"; return .full)

/-- Reads a level, with the sizes of the grid if they are given, and the coverage. A grid without
    sizes is that of the enclosing kernel. -/
def grid : Parser Grid := do
  let level ← level
  let sizes ← optional do
    skip
    parenthesized do
      let numGroups ← simpleOperand
      mark ","
      return (numGroups, ← simpleOperand)
  let coverage ← optional do
    blank
    coverage
  let (numGroups, groupSize) := sizes.getD (.int 1, .int 1)
  return { level, numGroups, groupSize, coverage := coverage.getD .direct }

def dim : Parser (Ident × Operand) := do
  let name ← identifier
  mark "<"
  return (name, ← simpleOperand)

def space : Parser IterationSpace := do
  let flat ← identifier
  skip
  let dims ← parenthesized (commaSeparated dim)
  return { flat, dims }

def param : Parser Param := do
  let name ← identifier
  mark ":"
  return { name, type := ← scalarType }

/-- Reads two or more elements in parentheses, or a single one without. -/
def tuple {α : Type} (p : Parser α) : Parser (List α) :=
  parenthesized (separated2 p (mark ",")) <|> (do return [← p])

def lambda : Parser Lambda := do
  let start ← offset
  token "\\"
  skip
  let params ← commaSeparated param
  mark "->"
  let results ← tuple expression
  return { params, results, span := some ⟨start, ← offset⟩ }

def neutral : Parser (List Operand) := tuple simpleOperand

/-- Reads a bracketed list of operands that may be missing. -/
def optionalShape : Parser (List Operand) := do
  let shape ← optional do
    skip
    bracketed (commaSeparated simpleOperand)
  return shape.getD []

def combiner : Parser Combiner := do
  let commutative ← optional do
    token "commutative"
    blank
  token "op"
  let shape ← optionalShape
  skip
  parenthesized do
    let lambda ← lambda
    mark ";"
    let neutral ← neutral
    return { lambda, neutral, shape, commutative := commutative.isSome }

def histogram : Parser Histogram := do
  token "hist"
  let outerShape ← optionalShape
  skip
  parenthesized do
    let width ← simpleOperand
    mark ";"
    let dests ← separated1 identifier (mark ",")
    mark ";"
    let lambda ← lambda
    mark ";"
    let neutral ← neutral
    return { width, outerShape, neutral, lambda, dests }

/-! ### Results -/

def tileDim : Parser (Operand × Operand) := do
  let extent ← simpleOperand
  mark "/"
  return (extent, ← simpleOperand)

def writeTarget : Parser (List Operand × Operand) := do
  let index ← bracketed (commaSeparated simpleOperand)
  mark "="
  return (index, ← simpleOperand)

def split : Parser Split :=
  (do word "contiguous"; return .contiguous) <|> (do return .strided (← call "strided" simpleOperand))

def result : Parser BodyResult :=
  firstOf [
    call "tile" (do
      let tiles ← commaSeparated tileDim
      mark ";"
      return .tile tiles (← identifier)),
    (do
      token "write"
      skip
      let shape ← bracketed (commaSeparated simpleOperand)
      skip
      return .write shape (← parenthesized (commaSeparated writeTarget))),
    call "concat" (do
      let split ← split
      mark ","
      let perThread ← simpleOperand
      mark ";"
      return .concat split perThread (← identifier)),
    (do return .returns (← simpleOperand))]

/-! ### Bodies and operations -/

/-- Reads the name of a scalar that a body statement binds, after the keyword. -/
def binding : Parser Ident := do
  token "let"
  blank
  let name ← identifier
  mark ":"
  return name

/-- Reads a statement of a body. `op` reads a nested operation. -/
def bodyStm (op : Parser SegOp) : Parser BodyStm :=
  firstOf [
    (do
      token "let"
      blank
      let pattern ← pattern
      mark "="
      let op ← op
      skip
      token ";"
      return .nested pattern op),
    (do
      let name ← binding
      let type ← scalarType
      mark "="
      let array ← identifier
      skip
      let index ← bracketed (commaSeparated expression)
      skip
      token ";"
      return .index name type array index),
    (do
      let name ← binding
      let length ← bracketed digits
      skip
      let type ← scalarType
      mark "="
      let elems ← bracketed (commaSeparated simpleOperand)
      skip
      token ";"
      accept (if ofDecimalDigits length = elems.length then .ok (.arrayLit name type elems)
        else .error "array literal of the declared length")),
    (do
      let name ← binding
      let type ← scalarType
      mark "="
      let value ← expression
      skip
      token ";"
      return .compute name type value)]
where
  /-- Reads one or more digits; where they end another digit was expected. -/
  digits : Parser (List Char) := fun c =>
    let ds := c.rest.takeWhile isDigit
    let c := c.advance ds
    ⟨if ds.isEmpty then none else some (ds, c), .single c (.named "['0'..='9']")⟩

/-- Reads the statements and the results of a body. -/
def body (op : Parser SegOp) : Parser (List BodyStm × List BodyResult) := do
  token "\x7b"
  skip
  let stms ← separated (bodyStm op) skip
  skip
  word "return"
  skip
  let results ← commaSeparated result
  skip
  let _ ← optional (do token ";"; skip)
  token "\x7d"
  return (stms, results)

/-- Reads an operation of the given kind, whose operators `ops` reads. -/
def segOpOf (name : String) (ops : Parser SegKind) (op : Parser SegOp) : Parser SegOp := do
  token name
  token "@"
  let grid ← grid
  skip
  let space ← space
  skip
  let kind ← ops
  let (stms, results) ← body op
  return { kind, grid, space, stms, results }

/-- Reads the operators of an operation and the blanks after them. -/
def operators {α : Type} (p : Parser α) (kind : List α → SegKind) : Parser SegKind := do
  let ops ← bracketed (commaSeparated p)
  skip
  return kind ops

/-- Reads an operation. The fuel bounds the depth of nesting; each level of it reads a character. -/
def segOpWithin : (fuel : Nat) → Parser SegOp
  | 0 => fail
  | n + 1 => do
    let start ← offset
    let op ← firstOf [
      segOpOf "segmap" (pure .map) (segOpWithin n),
      segOpOf "segred" (operators combiner .reduce) (segOpWithin n),
      segOpOf "segscan" (operators combiner .scan) (segOpWithin n),
      segOpOf "seghist" (operators histogram .histogram) (segOpWithin n)]
    return { op with span := some ⟨start, ← offset⟩ }

def segOp : Parser SegOp := withFuel segOpWithin

/-! ### Files -/

/-- A declaration or an operation. -/
inductive Item
  | array (name : Ident) (type : ScalarType) (shape : List Operand)
  | scalar (name : Ident) (type : ScalarType)
  | constant (name : Ident) (value : Value)
  | op (op : HostOp)

/-- Reads a declaration up to the colon. -/
def declaration (keyword : String) : Parser Ident := do
  token keyword
  blank
  let name ← identifier
  mark ":"
  return name

/-- Reads the end of an item. -/
def semicolon : Parser Unit := do
  skip
  token ";"

/-- Reads the assignment of a built-in operation to an array. -/
def builtin (name : String) (arguments : Ident → Parser HostOp) : Parser Item := do
  let dest ← identifier
  mark "="
  let op ← call name (arguments dest)
  semicolon
  return .op op

def item : Parser Item :=
  firstOf [
    (do
      let name ← declaration "array"
      let shape ← shape
      let type ← scalarType
      semicolon
      return .array name type shape),
    (do
      let name ← declaration "scalar"
      let type ← scalarType
      semicolon
      return .scalar name type),
    (do
      let name ← declaration "const"
      let type ← scalarType
      mark "="
      let value ← typedLiteral type
      semicolon
      return .constant name value),
    builtin "replicate" (fun dest => return .replicate dest (← simpleOperand)),
    builtin "iota" (fun dest => do
      let start ← simpleOperand
      mark ","
      return .iota dest start (← simpleOperand)),
    builtin "copy" (fun dest => return .copy dest (← identifier)),
    (do
      token "let"
      blank
      let pattern ← pattern
      mark "="
      let op ← segOp
      semicolon
      return .op (.seg pattern op))]

/-- Adds an item to a module. A name that an operation binds becomes an array unless it is one. -/
def Item.addTo (m : Module) : Item → Module
  | array name type shape => { m with env := { m.env with arrays := m.env.arrays.insert name (type, shape) } }
  | scalar name type => { m with env := { m.env with scalars := m.env.scalars.insert name type } }
  | constant name value => { m with env := { m.env with constants := m.env.constants.insert name value } }
  | op (.seg pattern o) =>
    let arrays := pattern.foldl (fun t p => t.insertIfNew p.name (p.type, p.shape)) m.env.arrays
    { env := { m.env with arrays }, ops := m.ops ++ [.seg pattern o] }
  | op o => { m with ops := m.ops ++ [o] }

def module : Parser Module := do
  skip
  let items ← separated item skip
  skip
  notAhead (char fun _ => true)
  return items.foldl Item.addTo {}

end SegKernel.Syntax
