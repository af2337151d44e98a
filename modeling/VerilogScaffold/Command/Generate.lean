import VerilogScaffold.Command.Basic
import VerilogScaffold.Command.Survey
import VerilogScaffold.Command.Workspace
import VerilogScaffold.Output.Delivery

/-!
# Generating text for sources

A batch is generated in two rounds. First every source is read and its text is drafted; nothing is
printed or written yet, so no source can see what another one gives. Then the drafts are reported
and delivered one by one, in the order of the sources. A source that fails does not stop the others.
-/

namespace VerilogScaffold

/-- Text for a source, ready to be delivered. -/
structure Draft where
  source : Path
  report : String
  result : Except SourceError String

/-- What failed in a batch. -/
structure Tally where
  failures : Nat
  /-- The failures of sources without a module. -/
  withoutModule : Nat
  deriving DecidableEq

namespace Tally

/-- Nothing failed. -/
def zero : Tally := ⟨0, 0⟩

/-- Counts a failure of a source. -/
def addSource (t : Tally) (e : SourceError) : Tally :=
  ⟨t.failures + 1, t.withoutModule + if e.isWithoutModule then 1 else 0⟩

/-- Counts a failure of a delivery. -/
def addDelivery (t : Tally) : Tally := { t with failures := t.failures + 1 }

/-- What is said of the failures in a batch. -/
def message (t : Tally) (total : Nat) : String :=
  "   Result: " ++ toString t.failures ++ " of " ++ toString total ++ " file(s) failed" ++
    if t.withoutModule = 0 then "" else ", " ++ toString t.withoutModule ++ " without a module"

end Tally

/-- What a batch is generated with. -/
structure BatchPlan where
  kind : ScaffoldKind
  template : String
  mode : OutputMode
  target : OutputTarget

namespace BatchPlan

variable {m : Type → Type} [Monad m] [MonadFiles m]

/-- The template to generate with: a file, or the one that the configuration selects. -/
def templateText (w : Workspace) (kind : ScaffoldKind) (template? : Option Path) :
    m (Except CommandError String) := do
  match template? with
  | some path =>
    match ← Files.readText path with
    | .ok text => return .ok text
    | .error cause => return .error (.templateFile path cause)
  | none =>
    match ← w.store.load kind (w.config.templates.selected? kind) with
    | .ok text => return .ok text
    | .error cause => return .error (.template cause)

/-- The plan that a configuration gives, with what goes before it. -/
def ofWorkspace (w : Workspace) (kind : ScaffoldKind) (template? : Option Path)
    (mode? : Option OutputMode) : m (Except CommandError BatchPlan) := do
  match ← templateText w kind template? with
  | .error e => return .error e
  | .ok template =>
    let settings := w.config.output kind
    return .ok ⟨kind, template, mode?.getD settings.mode,
      ⟨settings.directory, w.config.fileName kind⟩⟩

/-- Reads a source and drafts its text. -/
def draft (plan : BatchPlan) (colour : Bool) (source : Path) : m Draft := do
  let survey ← Survey.read colour source
  return ⟨source, survey.report, survey.result.map (Template.render plan.template)⟩

variable [MonadConsole m]

/-- Reports a draft and delivers it. -/
def deliver (plan : BatchPlan) (r : Reporting) (t : Tally) (d : Draft) : m Tally := do
  r.publish d.report d.result.isOk
  match d.result with
  | .error e =>
    Reporting.complain e.message
    return t.addSource e
  | .ok text =>
    match ← Delivery.deliver text d.source plan.mode plan.target with
    | .ok none => return t
    | .ok (some path) =>
      r.remark ("   Generated " ++ plan.kind.word ++ " -> " ++ path.text)
      return t
    | .error e =>
      Reporting.complain e.message
      return t.addDelivery

/-- Generates a batch, and counts what failed. -/
def run (plan : BatchPlan) (r : Reporting) (sources : List Path) : m Tally := do
  -- all of the first round comes before any of the second
  let drafts ← sources.mapM (plan.draft r.colour)
  drafts.foldlM (plan.deliver r) .zero

end BatchPlan

namespace Command

variable {m : Type → Type} [Monad m] [MonadFiles m] [MonadConsole m]

/-- Generates text for sources. -/
def runGenerate (r : Reporting) (w : Workspace) (kind : ScaffoldKind) (sources : List Path)
    (template? : Option Path) (mode? : Option OutputMode) : m (Except CommandError ExitStatus) := do
  match ← BatchPlan.ofWorkspace w kind template? mode? with
  | .error e => return .error e
  | .ok plan =>
    let tally ← plan.run r sources
    if tally.failures = 0 then return .ok .success
    else
      r.remark (tally.message sources.length)
      return .ok .failure

end Command

end VerilogScaffold
