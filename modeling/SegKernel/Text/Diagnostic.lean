import SegKernel.Text.Source
import SegKernel.Text.Width

/-! Messages for people: a title, perhaps the line of a source that it is about with a part of it
    underlined, and notes. The rendering is for a terminal with colours. -/

namespace SegKernel

/-- A part of a line, from character `start` up to, not including, `stop`, and what is said about it. -/
structure Highlight where
  line : Nat
  start : Nat
  stop : Nat
  text : String
deriving DecidableEq

structure Diagnostic where
  title : String
  highlight : Option Highlight := none
  notes : List String := []
deriving DecidableEq

/-- What a piece of a rendered message is. -/
inductive Paint
  | error
  | frame
  | strong

namespace Paint

def code : Paint → String
  | error => "\x1b[1;38;5;9m"
  | frame => "\x1b[1;38;5;12m"
  | strong => "\x1b[1m"

def apply (paint : Paint) (text : String) : String := paint.code ++ text ++ "\x1b[0m"

end Paint

def blanks (n : Nat) : String := String.ofList (List.replicate n ' ')

/-- The lines of a note. A carriage return before a newline belongs to the line end. -/
def noteLines (note : String) : List String :=
  let dropReturn (cs : List Char) : List Char := if cs.getLast? = some '\r' then cs.dropLast else cs
  let rec go : List String → List String
    | [] => []
    | [last] => if last.isEmpty then [] else [last]
    | line :: lines => String.ofList (dropReturn line.toList) :: go lines
  go (note.splitOn "\n")

namespace Highlight

/-- The highlight for a line of `bytes` bytes: it does not end after as many characters, nor before its
    start. -/
def clip (a : Highlight) (bytes : Nat) : Highlight := { a with stop := max a.start (min a.stop bytes) }

/-- What a line with a highlight shows. -/
inductive Underline
  /-- The highlight starts after the line. -/
  | nothing
  /-- The columns from `start` up to `stop`, with the text. The end of the line is one more column. -/
  | part (start stop : Nat)
  /-- The highlight goes on after the line, and starts at a column of it. -/
  | opening (start : Nat)

def underline (a : Highlight) (line : List Char) : Underline :=
  let length := line.length
  let start := Width.ofChars (line.take a.start)
  if length < a.start then .nothing
  else if a.stop ≤ length + 1 then
    .part start (Width.ofChars (line.take a.stop) + (a.stop - length))
  else .opening start

/-- The lines under the header: a rule, the source line with its number, what is underlined in it, and
    a rule again. `width` is the width of line numbers. -/
def body (a : Highlight) (line : String) (width : Nat) : List String :=
  let rule := Paint.frame.apply (blanks width ++ " |")
  let number := Paint.frame.apply (toString a.line ++ " |")
  if line.isEmpty then [rule, rule]
  else
    match a.underline line.toList with
    | .nothing => [rule, number ++ " " ++ line, rule]
    | .part start stop =>
      let marks := blanks (start + 1) ++ String.ofList (List.replicate (stop - start) '^')
      let text := if a.text.isEmpty then "" else " " ++ Paint.error.apply a.text
      [rule, number ++ " " ++ line, rule ++ Paint.error.apply marks ++ text, rule]
    | .opening 0 => [rule, number ++ " " ++ Paint.error.apply "/" ++ " " ++ line, rule]
    | .opening start =>
      let marks := String.ofList (List.replicate (start + 1) '_') ++ "^"
      [rule, number ++ " " ++ line, rule ++ Paint.error.apply marks, rule]

/-- The header that names the file and the place, if the source has a file. -/
def header (a : Highlight) (source : Source) (line : String) (width : Nat) : List String :=
  match source.path with
  | none => []
  | some path =>
    let inside := !line.isEmpty && decide (a.start ≤ line.length)
    let place := if inside then toString a.line ++ ":" ++ toString (a.start + 1) else "1:1"
    [blanks width ++ Paint.frame.apply "-->" ++ " " ++ path ++ ":" ++ place]

end Highlight

namespace Diagnostic

def titleLine (d : Diagnostic) : String :=
  Paint.error.apply "error" ++ if d.title.isEmpty then "" else ": " ++ Paint.strong.apply d.title

/-- The lines of a note; all but the first are aligned with the text of the first. -/
def renderNote (width : Nat) (note : String) : List String :=
  match noteLines note with
  | [] => []
  | first :: rest =>
    (blanks width ++ " " ++ Paint.frame.apply "=" ++ " " ++ Paint.strong.apply "note" ++
      (if first.isEmpty then "" else ": " ++ first)) :: rest.map (blanks (width + 9) ++ ·)

/-- The highlight and its line, if the source has that line. -/
def shown? (d : Diagnostic) (source : Option Source) : Option (Highlight × Source × String) := do
  let a ← d.highlight
  let source ← source
  let line ← source.line? a.line
  return (a.clip line.utf8ByteSize, source, line)

/-- The lines of a message are joined by newlines, with none at the end. -/
def render (d : Diagnostic) (source : Option Source) : String :=
  let (width, shown) := match d.shown? source with
    | none => (0, [])
    | some (a, source, line) =>
      let width := if line.isEmpty then 0 else (toString a.line).length
      (width, a.header source line width ++ a.body line width)
  String.intercalate "\n" (d.titleLine :: shown ++ d.notes.flatMap (renderNote width))

end Diagnostic
end SegKernel
