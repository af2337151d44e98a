import VerilogScaffold.Diagnostic.Basic
import VerilogScaffold.Source.File

/-!
# Reports

A report shows a diagnostic to the person who wrote the source: a header, the place, the line of
source with carets under it, and the footnotes. Only the header is ever coloured. The line number
and the gutter under it have one width.
-/

namespace VerilogScaffold

/-- The terminal colour of a severity. -/
def Severity.colour : Severity → String
  | .error => "31"
  | .warning => "33"
  | .note => "36"

namespace Diagnostic

/-- The severity and code of a diagnostic, as its report opens. -/
def header (colour : Bool) (d : Diagnostic) : String :=
  let head := d.severity.word ++ "[" ++ d.code.text ++ "]"
  if colour then "\x1b[1;" ++ d.severity.colour ++ "m" ++ head ++ "\x1b[0m" else head

/-- A character repeated. -/
private def repeated (n : Nat) (c : Char) : String := String.ofList (List.replicate n c)

/-- The part of a report that shows the source: the place of the span, the line it starts on, and as
many carets as it has bytes, but at least one. A span that stops before it starts, or that cannot be
located, cannot be shown. -/
def excerpt? (file : SourceFile) (span : Span) : Option String := do
  let length ← span.length?
  let location ← file.locate? span
  let line ← file.lineText? span.start.toNat
  let number := toString location.first.line
  let gutter := repeated number.length ' '
  return "  --> " ++ location.text ++ "\n" ++
    gutter ++ " |\n" ++
    number ++ " | " ++ line ++ "\n" ++
    gutter ++ " | " ++ repeated (location.first.column - 1) ' ' ++
    repeated (max length 1) '^' ++ "\n"

/-- The report of a diagnostic on a file. A diagnostic at no place in particular shows no source. -/
def report? (colour : Bool) (file : SourceFile) (d : Diagnostic) : Option String := do
  let excerpt ← if d.span.isDummy then some "" else excerpt? file d.span
  return d.header colour ++ ": " ++ d.message ++ "\n" ++ excerpt ++
    String.join (d.notes.map fun note => "   = note: " ++ note ++ "\n") ++
    String.join (d.help.map fun help => "   = help: " ++ help ++ "\n")

/-- The report of a diagnostic on a file, or nothing for one that cannot be shown. -/
def report (colour : Bool) (file : SourceFile) (d : Diagnostic) : String :=
  (d.report? colour file).getD ""

end Diagnostic

end VerilogScaffold
