import VerilogScaffold.Source.Span

/-!
# Diagnostics

A diagnostic is a finding about a source: how severe it is, the code of its rule, one line of text,
the place it is about, and footnotes. Codes are a letter and a number of at least three digits.
-/

namespace VerilogScaffold

/-- How much a finding matters, from least to most. -/
inductive Severity
  | note
  | warning
  | error
  deriving DecidableEq, Inhabited

/-- The word that introduces a diagnostic of this severity. -/
def Severity.word : Severity → String
  | .note => "note"
  | .warning => "warning"
  | .error => "error"

def Severity.isError (s : Severity) : Bool := s == .error

/-- The family a diagnostic code belongs to. -/
inductive Category
  | error
  | warning
  deriving DecidableEq, Inhabited

/-- The letter that opens a code of this family. -/
def Category.letter : Category → Char
  | .error => 'E'
  | .warning => 'W'

/-- The code of a rule. -/
structure DiagnosticCode where
  category : Category
  number : UInt16
  deriving DecidableEq, Inhabited

/-- The written form of a code: its letter, then its number in at least three digits. -/
def DiagnosticCode.text (code : DiagnosticCode) : String :=
  let digits := (Nat.toDigits 10 code.number.toNat)
  String.ofList (code.category.letter :: (List.replicate (3 - digits.length) '0' ++ digits))

/-- A finding about a source. -/
structure Diagnostic where
  severity : Severity
  code : DiagnosticCode
  message : String
  span : Span
  notes : List String
  help : List String
  deriving DecidableEq, Inhabited

namespace Diagnostic

/-- An error without footnotes. -/
def error (number : UInt16) (message : String) (span : Span) : Diagnostic :=
  ⟨.error, ⟨.error, number⟩, message, span, [], []⟩

/-- A warning without footnotes. -/
def warning (number : UInt16) (message : String) (span : Span) : Diagnostic :=
  ⟨.warning, ⟨.warning, number⟩, message, span, [], []⟩

/-- Adds an explanatory footnote. -/
def withNote (d : Diagnostic) (note : String) : Diagnostic := { d with notes := d.notes ++ [note] }

/-- Adds a suggestion. -/
def withHelp (d : Diagnostic) (help : String) : Diagnostic := { d with help := d.help ++ [help] }

end Diagnostic

/-- The number of diagnostics of error severity in a list. -/
def errorCount (ds : List Diagnostic) : Nat := ds.countP (·.severity.isError)

end VerilogScaffold
