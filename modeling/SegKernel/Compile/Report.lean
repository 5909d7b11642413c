import SegKernel.Lowering.Error
import SegKernel.Syntax.Parse
import SegKernel.Text.Diagnostic

/-! The messages about a descriptor file that cannot be compiled. -/

namespace SegKernel

/-- Points at the character at which a text is refused. -/
def SyntaxError.diagnostic (e : SyntaxError) : Diagnostic where
  title := "expected " ++ e.expectation
  highlight := some ⟨e.place.line, e.place.column - 1, e.place.column, "unexpected input"⟩

/-- The part of its first line that a span covers, if the source has the line. -/
def Span.highlight? (span : Span) (source : Source) (text : String) : Option Highlight := do
  let first ← source.bytePlace? span.start
  let lineLength := ((source.line? first.line).map String.utf8ByteSize).getD 0
  let stop := match source.bytePlace? span.stop with
    | some last => if last.line = first.line then last.column - 1 else lineLength
    | none => lineLength
  return ⟨first.line, first.column - 1, stop, text⟩

/-- Says that something is not supported, or that the module contradicts itself and while what this
    was found. -/
def Notice.diagnostic (n : Notice) (source : Source) : Diagnostic :=
  match n.construct with
  | none => {
      title := "compiler limitation: " ++ n.what
      highlight := n.span.bind (·.highlight? source "not supported here") }
  | some construct => {
      title := "internal compiler error: " ++ n.what
      highlight := n.span.bind (·.highlight? source "unexpected construct")
      notes := ["while lowering " ++ construct] }

end SegKernel
