import VerilogScaffold.Command.Basic
import VerilogScaffold.Command.Survey
import VerilogScaffold.Command.Workspace

/-!
# Managing templates

Templates are listed, made, printed and deleted. In a listing the one that the configuration selects
is marked.
-/

namespace VerilogScaffold.Command

/-- A line of a listing of templates. -/
def templateLine (selected : String) (e : TemplateEntry) : String :=
  (if e.name = selected then "*" else " ") ++ " " ++ e.text ++ "\n"

/-- What is said of a deleted template that the configuration selects. -/
def stillSelectedMessage (name : String) : String :=
  "warning: '" ++ name ++
    "' is still selected in the configuration; the bundled template will be used\n"

variable {m : Type → Type} [Monad m] [MonadFiles m] [MonadConsole m]

/-- Does something with the templates of a kind. -/
def actOnTemplates (r : Reporting) (w : Workspace) (kind : ScaffoldKind) (action : TemplateAction) :
    m (Except TemplateError Unit) := do
  let selected? := w.config.templates.selected? kind
  match action with
  | .list =>
    match ← w.store.list kind with
    | .error e => return .error e
    | .ok entries =>
      let selected := selected?.getD Template.defaultName
      MonadConsole.putOut (String.join (entries.map (templateLine selected)))
      return .ok ()
  | .new name =>
    match ← w.store.create kind name with
    | .error e => return .error e
    | .ok path =>
      r.remark ("   Created " ++ path.text)
      MonadConsole.putOut (path.text ++ "\n")
      return .ok ()
  | .print name? =>
    let printed ← match name? with
      | some name => w.store.read kind name
      | none => w.store.load kind selected?
    match printed with
    | .error e => return .error e
    | .ok text =>
      MonadConsole.putOut text
      return .ok ()
  | .delete name =>
    match ← w.store.delete kind name with
    | .error e => return .error e
    | .ok () =>
      r.remark ("   Deleted " ++ kind.word ++ " template '" ++ name ++ "'")
      if selected? = some name then MonadConsole.putError (stillSelectedMessage name)
      return .ok ()

/-- Does something with the templates of a kind. -/
def runTemplate (r : Reporting) (w : Workspace) (kind : ScaffoldKind) (action : TemplateAction) :
    m (Except CommandError ExitStatus) := do
  match ← actOnTemplates r w kind action with
  | .ok () => return .ok .success
  | .error cause => return .error (.template cause)

end VerilogScaffold.Command
