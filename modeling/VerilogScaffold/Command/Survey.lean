import VerilogScaffold.Diagnostic.Report
import VerilogScaffold.Files.Basic
import VerilogScaffold.Signature.Extraction

/-!
# Surveys of sources

A survey is what came of looking at one source: the signature of its first module, or why there is
none, and a report of everything that was noticed on the way. Making a survey prints nothing.
-/

namespace VerilogScaffold

/-- Why a source gave no signature. -/
inductive SourceError
  | unreadable (path : Path) (cause : FileError)
  /-- The source was read, but holds no module to extract. -/
  | noSignature (path : Path) (cause : ExtractError Span)

def SourceError.message : SourceError → String
  | .unreadable path cause => "failed to read " ++ path.text ++ ": " ++ cause.message
  | .noSignature path cause => path.text ++ ": " ++ cause.message

/-- Whether a source was read, but holds no module to extract. -/
def SourceError.isWithoutModule : SourceError → Bool
  | .unreadable _ _ => false
  | .noSignature _ _ => true

/-- How much is printed, and in what fashion. -/
structure Reporting where
  quiet : Bool
  colour : Bool

/-- What came of looking at a source. -/
structure Survey where
  report : String
  result : Except SourceError Signature

namespace Survey

/-- Looks at a source that was read. -/
def ofFile (colour : Bool) (file : SourceFile) : Survey :=
  let extraction := Extraction.ofSource file.content
  ⟨String.join (extraction.diagnostics.map (·.report colour file)),
    extraction.result.mapError (.noSignature file.path)⟩

variable {m : Type → Type} [Monad m]

/-- Reads a source and looks at it. -/
def read [MonadFiles m] (colour : Bool) (path : Path) : m Survey := do
  match ← Files.readText path with
  | .ok content => return ofFile colour ⟨path, content⟩
  | .error cause => return ⟨"", .error (.unreadable path cause)⟩

end Survey

namespace Reporting

variable {m : Type → Type} [Monad m] [MonadConsole m]

/-- Prints what a user need not know. -/
def remark (r : Reporting) (line : String) : m Unit :=
  if r.quiet then return () else MonadConsole.putError (line ++ "\n")

/-- Prints an error. -/
def complain (message : String) : m Unit := MonadConsole.putError ("error: " ++ message ++ "\n")

/-- Prints a report. Where all went well a user need not know of it. -/
def publish (r : Reporting) (report : String) (isOk : Bool) : m Unit :=
  if r.quiet && isOk then return () else MonadConsole.putError report

end Reporting

end VerilogScaffold
