import VerilogScaffold.Config.Discovery
import VerilogScaffold.Template.Store

/-!
# Workspaces

A command works with a configuration and the directory that its relative paths start from. The
configuration is the one that is named, else the nearest one, else the default.
-/

namespace VerilogScaffold

/-- Why a command was not carried out. -/
inductive CommandError
  | config (path : Path) (cause : Config.LoadError)
  | template (cause : TemplateError)
  /-- A template file that was named could not be read. -/
  | templateFile (path : Path) (cause : FileError)
  deriving DecidableEq

def CommandError.message : CommandError → String
  | .config path cause => path.text ++ ": " ++ cause.message
  | .template cause => cause.message
  | .templateFile path cause => "failed to read template " ++ path.text ++ ": " ++ cause.message

/-- A configuration in use. -/
structure Workspace where
  config : Config
  /-- Where the relative paths of the configuration start. -/
  base : Path

namespace Workspace

/-- The templates at hand. -/
def store (w : Workspace) : TemplateStore := ⟨w.config.templates.customDirIn w.base⟩

/-- The directory that a file is in. -/
def directoryOf (path : Path) : Path :=
  match path.parent? with
  | some parent => if parent.text.isEmpty then ⟨"."⟩ else parent
  | none => ⟨"."⟩

variable {m : Type → Type} [Monad m] [MonadFiles m]

/-- The workspace of a configuration file. -/
def ofFile (path : Path) : m (Except CommandError Workspace) := do
  match ← Config.load path with
  | .ok config => return .ok ⟨config, directoryOf path⟩
  | .error cause => return .error (.config path cause)

/-- The workspace of the configuration file that is named or nearest. -/
def load (config? : Option Path) : m (Except CommandError Workspace) := do
  match config? with
  | some path => ofFile path
  | none =>
    let here ← MonadFiles.workingDirectory
    match ← Config.discover? here with
    | some path => ofFile path
    | none => return .ok ⟨.default, here⟩

end Workspace

end VerilogScaffold
