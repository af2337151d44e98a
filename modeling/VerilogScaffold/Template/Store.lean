import VerilogScaffold.Files.Basic
import VerilogScaffold.Template.Name
import VerilogScaffold.Template.Render

/-!
# Stores of templates

A store gives access to the bundled templates and to a directory of custom ones. A custom template
is a file whose name is the template's, the kind's suffix, and the extension. The bundled template
of each kind goes by a name of its own and cannot be changed.
-/

namespace VerilogScaffold

/-- Why an operation on templates failed. -/
inductive TemplateError
  /-- An operation on a file or directory failed. -/
  | files (path : Path) (cause : FileError)
  | invalidName (name : String)
  | alreadyExists (kind : ScaffoldKind) (name : String)
  | notFound (kind : ScaffoldKind) (name : String)
  /-- The name is that of the bundled template. -/
  | bundled
  deriving DecidableEq

def TemplateError.message : TemplateError → String
  | .files path cause => "failed to access template " ++ path.text ++ ": " ++ cause.message
  | .invalidName name => Template.invalidNameMessage name
  | .alreadyExists kind name => kind.word ++ " template '" ++ name ++ "' already exists"
  | .notFound kind name => "no " ++ kind.word ++ " template named '" ++ name ++ "'"
  | .bundled => "'default' is the bundled template and cannot be changed"

/-- A line in the listing of a store. -/
structure TemplateEntry where
  name : String
  isBundled : Bool
  deriving DecidableEq

/-- An entry as a listing shows it. -/
def TemplateEntry.text (e : TemplateEntry) : String :=
  if e.isBundled then "[Default] " ++ e.name else e.name

/-- A directory of custom templates, beside the bundled ones. -/
structure TemplateStore where
  directory : Path

namespace TemplateStore

open Template (bundled defaultName isValidName)

/-- The end of the names of the files of a kind. -/
def fileEnding (kind : ScaffoldKind) : String := kind.suffix ++ ".template"

/-- The file of a custom template, whether or not it is there. -/
def pathOf (s : TemplateStore) (kind : ScaffoldKind) (name : String) : Path :=
  s.directory.join ⟨name ++ fileEnding kind⟩

/-- The name of the template of a kind that a file holds, going by the file's name. -/
def nameOfFile? (kind : ScaffoldKind) (file : String) : Option String :=
  let ending := (fileEnding kind).toList
  if ending.isSuffixOf file.toList then
    let name := String.ofList (file.toList.take (file.toList.length - ending.length))
    if isValidName name then some name else none
  else none

/-- A missing file means that there is no such template. -/
def ofFileError (kind : ScaffoldKind) (name : String) (path : Path) : FileError → TemplateError
  | .notFound => .notFound kind name
  | cause => .files path cause

variable {m : Type → Type} [Monad m] [MonadFiles m]

/-- The bundled template of a kind, then the custom ones by name. A directory that is missing holds
no templates, and files with other names are passed over. -/
def list (s : TemplateStore) (kind : ScaffoldKind) :
    m (Except TemplateError (List TemplateEntry)) := do
  match ← MonadFiles.namesIn s.directory with
  | .error .notFound => return .ok [⟨defaultName, true⟩]
  | .error cause => return .error (.files s.directory cause)
  | .ok files =>
    let names := (files.filterMap (nameOfFile? kind)).mergeSort fun a b => decide (a ≤ b)
    return .ok (⟨defaultName, true⟩ :: names.map (⟨·, false⟩))

/-- The template to generate with. A custom template that is selected but not there gives way to the
bundled one. -/
def load (s : TemplateStore) (kind : ScaffoldKind) (selected : Option String) :
    m (Except TemplateError String) := do
  match selected with
  | none => return .ok (bundled kind)
  | some name =>
    if name = defaultName then return .ok (bundled kind)
    else if !isValidName name then return .error (.invalidName name)
    else
      match ← Files.readText (s.pathOf kind name) with
      | .ok text => return .ok text
      | .error .notFound => return .ok (bundled kind)
      | .error cause => return .error (.files (s.pathOf kind name) cause)

/-- The template of exactly that name. -/
def read (s : TemplateStore) (kind : ScaffoldKind) (name : String) :
    m (Except TemplateError String) := do
  if name = defaultName then return .ok (bundled kind)
  else if !isValidName name then return .error (.invalidName name)
  else
    match ← Files.readText (s.pathOf kind name) with
    | .ok text => return .ok text
    | .error cause => return .error (ofFileError kind name (s.pathOf kind name) cause)

/-- Makes a custom template with the text of the bundled one, and the directory if need be. -/
def create (s : TemplateStore) (kind : ScaffoldKind) (name : String) :
    m (Except TemplateError Path) := do
  if name = defaultName then return .error .bundled
  else if !isValidName name then return .error (.invalidName name)
  else
    match ← Files.ensureDirectories s.directory with
    | .error cause => return .error (.files s.directory cause)
    | .ok () =>
      let path := s.pathOf kind name
      match ← Files.createText path (bundled kind) with
      | .ok () => return .ok path
      | .error .alreadyExists => return .error (.alreadyExists kind name)
      | .error cause => return .error (.files path cause)

/-- Removes a custom template. -/
def delete (s : TemplateStore) (kind : ScaffoldKind) (name : String) :
    m (Except TemplateError Unit) := do
  if name = defaultName then return .error .bundled
  else if !isValidName name then return .error (.invalidName name)
  else
    match ← MonadFiles.removeFile (s.pathOf kind name) with
    | .ok () => return .ok ()
    | .error cause => return .error (ofFileError kind name (s.pathOf kind name) cause)

end TemplateStore

end VerilogScaffold
