import SegKernel.Syntax.Peg
import SegKernel.Scalar.Basic

/-! The words of descriptor texts: blanks and comments, identifiers, and the names of types. -/

namespace SegKernel.Syntax
open SegKernel.Syntax.Parser

/-! ### Blanks -/

def isBlank (c : Char) : Bool := c == ' ' || c == '\n' || c == '\t' || c == '\r'

mutual

/-- The place after all blanks and comments. A comment runs from `//` to the end of the line, or from
    `/*` to the first `*/`; one that is not closed is no comment. -/
def afterBlanks (offset : Nat) : List Char → Cursor
  | '/' :: '/' :: cs => afterLine (offset + 2) cs
  | '/' :: '*' :: cs => afterComment ⟨'/' :: '*' :: cs, offset⟩ (offset + 2) cs
  | c :: cs => if isBlank c then afterBlanks (offset + 1) cs else ⟨c :: cs, offset⟩
  | [] => ⟨[], offset⟩

/-- The place after the rest of a line and the blanks that follow. -/
def afterLine (offset : Nat) : List Char → Cursor
  | '\n' :: cs => afterBlanks (offset + 1) cs
  | c :: cs => afterLine (offset + c.utf8Size) cs
  | [] => ⟨[], offset⟩

/-- The place after the rest of a comment that begins at `start`, and the blanks that follow. -/
def afterComment (start : Cursor) (offset : Nat) : List Char → Cursor
  | '*' :: '/' :: cs => afterBlanks (offset + 2) cs
  | c :: cs => afterComment start (offset + c.utf8Size) cs
  | [] => start

end

/-- Skips blanks and comments. -/
def skip : Parser Unit := fun c => ⟨some ((), afterBlanks c.offset c.rest), {}⟩

/-- Skips a blank and all blanks and comments after it. -/
def blank : Parser Unit := do
  let _ ← char isBlank
  skip

/-! ### Words -/

def isDigit (c : Char) : Bool := '0' ≤ c && c ≤ '9'
def isIdentStart (c : Char) : Bool := ('a' ≤ c && c ≤ 'z') || ('A' ≤ c && c ≤ 'Z') || c == '_'
def isIdentChar (c : Char) : Bool := isIdentStart c || isDigit c

/-- Succeeds at the end of a word. -/
def wordEnd : Parser Unit := notAhead (char isIdentChar)

/-- The words that are no identifiers. -/
def keywords : List String :=
  ["array", "scalar", "const", "let", "return", "segmap", "segred", "segscan", "seghist", "thread", "group",
    "virtualize", "full", "commutative", "op", "hist", "tile", "write", "concat", "contiguous", "strided",
    "replicate", "iota", "copy", "min", "max", "abs", "select", "bitcast", "true", "false", "bool", "i32",
    "i64", "u32", "u64", "f32", "f64"]

/-- The word at the start of a text, if it is an identifier. -/
def identifierAt (cs : List Char) : Option (List Char) :=
  match cs with
  | c :: _ =>
    let word := cs.takeWhile isIdentChar
    if isIdentStart c && !keywords.contains (String.ofList word) then some word else none
  | [] => none

def identifier : Parser Ident := fun c =>
  match identifierAt c.rest with
  | some word => ⟨some (String.ofList word, c.advance word), {}⟩
  | none => ⟨none, .single c (.named "identifier")⟩

/-- A keyword that is not the beginning of a longer word. -/
def word (s : String) : Parser Unit := do
  token s
  wordEnd

/-- Reads the name of a type. -/
def scalarType : Parser ScalarType := do
  let t ← firstOf (ScalarType.all.map fun t => (do token t.name; return t))
  wordEnd
  return t

/-! ### Punctuation -/

/-- A punctuation mark and the blanks around it. -/
def mark (s : String) : Parser Unit := do
  skip
  token s
  skip

/-- Elements separated by commas. -/
def commaSeparated {α : Type} (p : Parser α) : Parser (List α) := separated p (mark ",")

end SegKernel.Syntax
