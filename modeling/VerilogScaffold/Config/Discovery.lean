import VerilogScaffold.Config.Reader
import VerilogScaffold.Files.Basic

/-!
# Finding configurations

Without a configuration file that is named, the nearest one counts: that of the directory itself, of
its parent, and so on.
-/

namespace VerilogScaffold.Config

/-- The name of configuration files. -/
def configFileName : String := "vgen.toml"

/-- Why a configuration could not be loaded. -/
inductive LoadError
  | unreadable (cause : FileError)
  | refused (refusal : Refusal)
  deriving DecidableEq

def LoadError.message : LoadError → String
  | .unreadable cause => "failed to read configuration: " ++ cause.message
  | .refused refusal => refusal.message

variable {m : Type → Type} [Monad m] [MonadFiles m]

/-- The first of some paths that is a file. -/
def firstFile? : List Path → m (Option Path)
  | [] => return none
  | path :: rest => do if ← Files.isFile path then return some path else firstFile? rest

/-- The nearest configuration file from a directory upwards. -/
def discover? (start : Path) : m (Option Path) :=
  firstFile? (start.ancestors.map (·.join ⟨configFileName⟩))

/-- Loads a configuration file. -/
def load (path : Path) : m (Except LoadError Config) := do
  match ← Files.readText path with
  | .error cause => return .error (.unreadable cause)
  | .ok text =>
    match ofString text with
    | .ok config => return .ok config
    | .error refusal => return .error (.refused refusal)

end VerilogScaffold.Config
