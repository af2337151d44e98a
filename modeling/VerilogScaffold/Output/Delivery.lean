import VerilogScaffold.Config.Basic
import VerilogScaffold.Files.Basic
import VerilogScaffold.Output.Target

/-!
# Delivery

Generated text is delivered to standard output or to a file. On standard output it ends in a
newline. A file's directory is made if need be; text that is added to a file stands after a blank
line.
-/

namespace VerilogScaffold

/-- Why generated text did not reach its file. -/
inductive DeliveryError
  /-- The directory could not be made. -/
  | directory (path : Path) (cause : FileError)
  | file (path : Path) (cause : FileError)
  deriving DecidableEq

def DeliveryError.message : DeliveryError → String
  | .directory path cause =>
    "failed to create output directory " ++ path.text ++ ": " ++ cause.message
  | .file path cause => "failed to write " ++ path.text ++ ": " ++ cause.message

namespace Delivery

/-- What stands between the content of a file and the text that is added to it. -/
def separator : String := "\n\n"

/-- A text with a newline at its end. -/
def ended (text : String) : String :=
  if text.toList.getLast? = some '\n' then text else text ++ "\n"

variable {m : Type → Type} [Monad m] [MonadFiles m]

/-- Makes the directory of a file. -/
def prepare (path : Path) : m (Except DeliveryError Unit) := do
  match path.parent? with
  | none => return .ok ()
  | some directory =>
    match ← Files.ensureDirectories directory with
    | .ok () => return .ok ()
    | .error cause => return .error (.directory directory cause)

/-- Writes a text to a file, replacing or following its content. -/
def write (path : Path) (text : String) (adding : Bool) : m (Except DeliveryError Unit) := do
  match ← prepare path with
  | .error e => return .error e
  | .ok () =>
    let written ←
      if adding && (← Files.isPresent path) then Files.appendText path (separator ++ text)
      else Files.writeText path text
    match written with
    | .ok () => return .ok ()
    | .error cause => return .error (.file path cause)

/-- Delivers a text generated from a source, and returns the file it went to, if any. -/
def deliver [MonadConsole m] (text : String) (source : Path) (mode : OutputMode)
    (target : OutputTarget) : m (Except DeliveryError (Option Path)) := do
  match mode with
  | .stdout =>
    MonadConsole.putOut (ended text)
    return .ok none
  | .overwrite | .append =>
    let path := target.resolve source
    match ← write path text (mode == .append) with
    | .ok () => return .ok (some path)
    | .error e => return .error e

end Delivery

end VerilogScaffold
