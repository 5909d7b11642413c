/-! Source texts, their lines, and places in them. Lines end with a newline; the last one may be
    empty. -/

namespace SegKernel

/-- A line and a column, both counted from one. -/
structure Place where
  line : Nat
  column : Nat
deriving DecidableEq

/-- A text, and the path of the file that holds it. -/
structure Source where
  text : String
  path : Option String := none

namespace Source

def lines (s : Source) : List String := s.text.splitOn "\n"

/-- The text of a line, without its newline. -/
def line? (s : Source) (n : Nat) : Option String := if n = 0 then none else s.lines[n - 1]?

def byteLength (s : Source) : Nat := s.text.utf8ByteSize

/-- Finds the line in which an offset lies; `n` is the number of the first one. -/
def placeIn : (n : Nat) → (lines : List String) → (offset : Nat) → Place
  | n, line :: next :: lines, offset =>
    if offset ≤ line.utf8ByteSize then ⟨n, offset + 1⟩
    else placeIn (n + 1) (next :: lines) (offset - (line.utf8ByteSize + 1))
  | n, _, offset => ⟨n, offset + 1⟩

/-- The place of an offset, both in bytes. -/
def bytePlace? (s : Source) (offset : Nat) : Option Place :=
  if s.byteLength < offset then none else some (placeIn 1 s.lines offset)

/-- The place `offset` bytes after `place` in the text `cs`, with columns counted in characters. -/
def charPlaceFrom (place : Place) : List Char → (offset : Nat) → Place
  | [], _ => place
  | c :: cs, offset =>
    if offset = 0 then place
    else if c = '\n' then charPlaceFrom ⟨place.line + 1, 1⟩ cs (offset - 1)
    else charPlaceFrom ⟨place.line, place.column + 1⟩ cs (offset - c.utf8Size)

/-- The place of an offset in bytes, with the column in characters. -/
def charPlace (s : Source) (offset : Nat) : Place := charPlaceFrom ⟨1, 1⟩ s.text.toList offset

end Source
end SegKernel
