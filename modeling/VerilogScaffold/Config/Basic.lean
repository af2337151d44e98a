import VerilogScaffold.Path
import VerilogScaffold.Template.Kind
import VerilogScaffold.Template.Name

/-!
# Configuration

A configuration says where custom templates live, which template each kind of text is generated
from, and where generated text goes. Everything in it has a default, so the empty configuration is
one.

A configuration that was read is also checked: what it names must be usable. `Config.fault?` finds
the first fault, kind by kind.
-/

namespace VerilogScaffold

/-- Where generated text goes. -/
inductive OutputMode
  | stdout
  /-- To a file, whose content is replaced. -/
  | overwrite
  /-- To the end of a file, after a blank line. -/
  | append
  deriving DecidableEq, Inhabited

namespace OutputMode

def all : List OutputMode := [.stdout, .overwrite, .append]

/-- The word for a mode in configuration files and on the command line. -/
def word : OutputMode → String
  | .stdout => "stdout"
  | .overwrite => "file-overwrite"
  | .append => "file-append"

/-- The mode a word stands for. -/
def ofWord? (word : String) : Option OutputMode := all.find? (·.word == word)

/-- What is said of a word that stands for no mode. -/
def unknownMessage (word : String) : String :=
  "unknown output mode '" ++ word ++ "' (expected stdout, file-overwrite or file-append)"

end OutputMode

/-- Where custom templates live, and which template each kind of text is generated from; the bundled
one, if none is named. -/
structure TemplateSettings where
  customDir : String
  instantiation : Option String
  testbench : Option String
  deriving DecidableEq

/-- Where one kind of generated text goes. The directory is relative to that of the source. -/
structure OutputSettings where
  mode : OutputMode
  directory : String
  fileName : Option String
  deriving DecidableEq

/-- A configuration. -/
structure Config where
  templates : TemplateSettings
  instantiation : OutputSettings
  testbench : OutputSettings
  deriving DecidableEq

def TemplateSettings.default : TemplateSettings := ⟨".vgen/templates", none, none⟩

/-- The template that is named for a kind. -/
def TemplateSettings.selected? (t : TemplateSettings) : ScaffoldKind → Option String
  | .instantiation => t.instantiation
  | .testbench => t.testbench

/-- The directory of custom templates, relative to the directory of the configuration. -/
def TemplateSettings.customDirIn (t : TemplateSettings) (base : Path) :
    Path := base.join ⟨t.customDir⟩

def OutputSettings.default : OutputSettings := ⟨.stdout, "./", none⟩

/-- The pattern for the names of generated files; the source's base name goes in for the
placeholder. -/
def ScaffoldKind.defaultFileName : ScaffoldKind → String
  | .instantiation => "$\x7bbaseName\x7d_inst.v"
  | .testbench => "tb_$\x7bbaseName\x7d.v"

namespace Config

def default : Config := ⟨.default, .default, .default⟩

/-- The output settings of a kind. -/
def output (c : Config) : ScaffoldKind → OutputSettings
  | .instantiation => c.instantiation
  | .testbench => c.testbench

/-- The file name pattern of a kind. -/
def fileName (c : Config) (kind : ScaffoldKind) : String :=
  (c.output kind).fileName.getD kind.defaultFileName

/-! ## Checking -/

/-- What can be wrong with a configuration that was read. -/
inductive Fault
  | emptyFileName (kind : ScaffoldKind)
  | invalidTemplateName (kind : ScaffoldKind) (name : String)
  | emptyCustomDir
  deriving DecidableEq

def Fault.message : Fault → String
  | .emptyFileName kind => kind.word ++ ".file_name must not be empty"
  | .invalidTemplateName kind name =>
    "templates." ++ kind.word ++ ": " ++ Template.invalidNameMessage name
  | .emptyCustomDir => "templates.custom_dir must not be empty"

/-- The fault in the settings of a kind: that of the file name comes first. -/
def faultOf? (c : Config) (kind : ScaffoldKind) : Option Fault :=
  if (c.output kind).fileName = some "" then some (.emptyFileName kind)
  else
    match c.templates.selected? kind with
    | some name => if Template.isValidName name then none else some (.invalidTemplateName kind name)
    | none => none

/-- The first fault of a configuration. -/
def fault? (c : Config) : Option Fault :=
  (ScaffoldKind.all.findSome? c.faultOf?).or
    (if c.templates.customDir.isEmpty then some .emptyCustomDir else none)

end Config

end VerilogScaffold
