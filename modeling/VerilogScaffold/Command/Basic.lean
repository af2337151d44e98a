import VerilogScaffold.Config.Basic

/-!
# Commands

A request is what a user asks of the program: one command, and preferences that every command
shares.
-/

namespace VerilogScaffold

/-- How a signature is printed. -/
inductive SignatureFormat
  /-- A listing for people. -/
  | text
  | json
  deriving DecidableEq, Inhabited

namespace SignatureFormat

def all : List SignatureFormat := [.text, .json]

/-- The word for a format on the command line. -/
def word : SignatureFormat → String
  | .text => "text"
  | .json => "json"

end SignatureFormat

/-- Whether reports are coloured. -/
inductive ColourChoice
  /-- On terminals only. -/
  | auto
  | always
  | never
  deriving DecidableEq, Inhabited

namespace ColourChoice

def all : List ColourChoice := [.auto, .always, .never]

/-- The word for a choice on the command line. -/
def word : ColourChoice → String
  | .auto => "auto"
  | .always => "always"
  | .never => "never"

end ColourChoice

/-- What every command takes into account. -/
structure Preferences where
  /-- To say nothing but errors. -/
  quiet : Bool
  /-- To say more. No command has more to say yet. -/
  verbose : Bool
  colour : ColourChoice
  /-- The configuration file to use instead of the nearest one. -/
  config? : Option Path
  deriving DecidableEq

/-- What can be done with the templates of a kind. -/
inductive TemplateAction
  | list
  | new (name : String)
  /-- Prints the template of a name, or the one to generate with. -/
  | print (name? : Option String)
  | delete (name : String)
  deriving DecidableEq

/-- What a user can ask for. -/
inductive Command
  /-- Generates text from the first module of each source. A template file and an output mode go
  before those of the configuration. -/
  | generate (kind : ScaffoldKind) (sources : List Path) (template? : Option Path)
      (mode? : Option OutputMode)
  | signature (source : Path) (format : SignatureFormat)
  | template (kind : ScaffoldKind) (action : TemplateAction)
  deriving DecidableEq

/-- A command and the preferences to carry it out with. -/
structure Request where
  preferences : Preferences
  command : Command
  deriving DecidableEq

/-- How the program ends. -/
inductive ExitStatus
  | success
  /-- Something that was asked for was not done. -/
  | failure
  /-- The command line made no sense. -/
  | misuse
  deriving DecidableEq

/-- The number that tells the caller how the program ended. -/
def ExitStatus.code : ExitStatus → UInt32
  | .success => 0
  | .failure => 1
  | .misuse => 2

end VerilogScaffold
