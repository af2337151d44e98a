import VerilogScaffold.Command.Basic
import VerilogScaffold.Command.Survey
import VerilogScaffold.Json.Record
import VerilogScaffold.Signature.Listing

/-!
# Printing signatures

The signature of a source's first module is printed as a listing or in JSON.
-/

namespace VerilogScaffold

/-- A signature in print. -/
def SignatureFormat.render : SignatureFormat → Signature → String
  | .text, s => s.listing
  | .json, s => (JsonForm.toJson s).pretty ++ "\n"

namespace Command

variable {m : Type → Type} [Monad m] [MonadFiles m] [MonadConsole m]

/-- Prints the signature of a source. -/
def runSignature (r : Reporting) (source : Path) (format : SignatureFormat) : m ExitStatus := do
  let survey ← Survey.read r.colour source
  r.publish survey.report survey.result.isOk
  match survey.result with
  | .error e =>
    Reporting.complain e.message
    return .failure
  | .ok s =>
    MonadConsole.putOut (format.render s)
    return .success

end Command

end VerilogScaffold
