import SegKernel.Syntax.Descriptor
import SegKernel.Text.Source

/-! Reading of descriptor texts. A text that is not a descriptor is refused at the furthest place at
    which something was expected. -/

namespace SegKernel

/-- Where a text is refused, and the tokens that were expected there, in order. -/
structure SyntaxError where
  place : Place
  offset : Nat
  expected : List String
deriving DecidableEq

namespace SyntaxError

def ofExpected (source : Source) (e : Syntax.Expected) : SyntaxError where
  place := source.charPlace e.offset
  offset := e.offset
  expected := (e.tokens.map Syntax.Token.text).mergeSort fun a b => a ≤ b

/-- The expected tokens in words. -/
def expectation (e : SyntaxError) : String :=
  match e.expected with
  | [] => "<unreported>"
  | [token] => token
  | tokens => "one of " ++ String.intercalate ", " tokens

def message (e : SyntaxError) : String :=
  "error at " ++ toString e.place.line ++ ":" ++ toString e.place.column ++ ": expected " ++ e.expectation

end SyntaxError

/-- Reads a whole text as a module. -/
def Module.parse (source : Source) : Except SyntaxError Module :=
  match Syntax.module ⟨source.text.toList, 0⟩ with
  | ⟨some (m, _), _⟩ => .ok m
  | ⟨none, e⟩ => .error (.ofExpected source e)

end SegKernel
