/-! Parsing expressions with ordered choice over a text. A parser that fails leaves a choice free to
    try its next alternative. All failures of a parse are remembered: the furthest place at which
    something was expected, and everything that was expected there, explain why a text is refused. -/

namespace SegKernel.Syntax

/-- A place in a text: what is left to read, and the number of bytes before it. -/
structure Cursor where
  rest : List Char
  offset : Nat := 0

namespace Cursor

/-- The number of bytes that characters take. -/
def byteLength (cs : List Char) : Nat := cs.foldl (fun n c => n + c.utf8Size) 0

/-- The place after the first characters, which are `cs`. -/
def advance (c : Cursor) (cs : List Char) : Cursor := ⟨c.rest.drop cs.length, c.offset + byteLength cs⟩

end Cursor

/-- Something that a parser expects: a text, or a named kind of text. -/
inductive Token
  | literal (text : String)
  | named (name : String)
deriving DecidableEq

/-- How a token is shown: a text in quotation marks, with quotation marks and backslashes escaped. -/
def Token.text : Token → String
  | literal s =>
    let escape (c : Char) : List Char := if c = '"' ∨ c = '\\' then ['\\', c] else [c]
    "\"" ++ String.ofList (s.toList.flatMap escape) ++ "\""
  | named name => name

/-- The furthest place at which something was expected, and what. -/
structure Expected where
  offset : Nat := 0
  tokens : List Token := []

namespace Expected

def single (c : Cursor) (token : Token) : Expected := ⟨c.offset, [token]⟩

/-- Keeps what lies further; at one place, all that was expected there. -/
def merge (a b : Expected) : Expected :=
  if a.offset < b.offset then b
  else if b.offset < a.offset then a
  else ⟨a.offset, a.tokens ++ b.tokens.filter fun t => !a.tokens.contains t⟩

end Expected

/-- The result of a parser: what it read and the place after it, or nothing; and what was expected. -/
structure Outcome (α : Type) where
  value : Option (α × Cursor)
  expected : Expected := {}

def Parser (α : Type) := Cursor → Outcome α

namespace Parser
variable {α β : Type}

protected def pure (a : α) : Parser α := fun c => ⟨some (a, c), {}⟩

protected def bind (p : Parser α) (f : α → Parser β) : Parser β := fun c =>
  match p c with
  | ⟨none, e⟩ => ⟨none, e⟩
  | ⟨some (a, c), e⟩ =>
    let r := f a c
    ⟨r.value, e.merge r.expected⟩

instance : Monad Parser where
  pure := Parser.pure
  bind := Parser.bind

/-- Fails without expecting anything. -/
def fail : Parser α := fun _ => ⟨none, {}⟩

/-- Tries `p`, and `q` at the same place if it fails. -/
protected def orElse (p : Parser α) (q : Unit → Parser α) : Parser α := fun c =>
  match p c with
  | ⟨some r, e⟩ => ⟨some r, e⟩
  | ⟨none, e⟩ =>
    let r := q () c
    ⟨r.value, e.merge r.expected⟩

instance : OrElse (Parser α) := ⟨Parser.orElse⟩

def firstOf : List (Parser α) → Parser α
  | [] => fail
  | p :: ps => p <|> firstOf ps

/-- Fails because something of the given name was expected here. -/
def expect (name : String) : Parser α := fun c => ⟨none, .single c (.named name)⟩

/-- Forgets what `p` expected. -/
def quiet (p : Parser α) : Parser α := fun c => ⟨(p c).value, {}⟩

/-- Succeeds, reading nothing, where `p` fails. -/
def notAhead (p : Parser α) : Parser Unit := fun c =>
  match (p c).value with
  | none => ⟨some ((), c), {}⟩
  | some _ => ⟨none, {}⟩

def optional (p : Parser α) : Parser (Option α) := (some <$> p) <|> pure none

/-- The place in bytes. -/
def offset : Parser Nat := fun c => ⟨some (c.offset, c), {}⟩

/-- Turns a message into an expectation. -/
def accept : Except String α → Parser α
  | .ok a => pure a
  | .error message => expect message

/-- Reads exactly the given text. -/
def token (s : String) : Parser Unit := fun c =>
  if s.toList.isPrefixOf c.rest then ⟨some ((), c.advance s.toList), {}⟩ else ⟨none, .single c (.literal s)⟩

/-- Reads one character of a class, without naming it. -/
def char (p : Char → Bool) : Parser Char := fun c =>
  match c.rest with
  | x :: _ => if p x then ⟨some (x, c.advance [x]), {}⟩ else ⟨none, {}⟩
  | [] => ⟨none, {}⟩

/-- Reads as many characters of a class as there are. -/
def takeWhile (p : Char → Bool) : Parser (List Char) := fun c =>
  let cs := c.rest.takeWhile p
  ⟨some (cs, c.advance cs), {}⟩

/-! ### Repetition -/

/-- Reads further elements with the separators before them, at most `fuel`. A separator without an
    element after it is not read. -/
def moreSeparated (p : Parser α) (sep : Parser Unit) : (fuel : Nat) → Parser (List α)
  | 0 => pure []
  | n + 1 =>
    (do
      sep
      let a ← p
      let as ← moreSeparated p sep n
      return a :: as) <|> pure []

/-- Runs a parser with enough fuel for every character that is left, and the end. -/
def withFuel (p : Nat → Parser α) : Parser α := fun c => p (c.rest.length + 1) c

/-- One or more elements with separators between them. -/
def separated1 (p : Parser α) (sep : Parser Unit) : Parser (List α) := do
  let a ← p
  let as ← withFuel (moreSeparated p sep)
  return a :: as

/-- Any number of elements with separators between them. -/
def separated (p : Parser α) (sep : Parser Unit) : Parser (List α) := separated1 p sep <|> pure []

/-- Two or more elements with separators between them. -/
def separated2 (p : Parser α) (sep : Parser Unit) : Parser (List α) := do
  match ← separated p sep with
  | a :: b :: as => return a :: b :: as
  | _ => fail

def many (p : Parser α) : Parser (List α) := separated p (pure ())

end Parser
end SegKernel.Syntax
