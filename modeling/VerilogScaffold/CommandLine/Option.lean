import VerilogScaffold.Command.Basic

/-!
# Options

An option goes by a long name, and some by a short one too. Giving it states a setting: a flag does
so by itself, other options need a value. Two options ask about the program itself, and so end the
reading of a command line as soon as they are met.
-/

namespace VerilogScaffold.CommandLine

/-- The options of all commands. -/
inductive OptionName
  | quiet
  | verbose
  | colour
  | config
  | template
  | output
  | format
  | kind
  | version
  | help
  deriving DecidableEq

/-- What an option states. -/
inductive Setting
  | quiet
  | verbose
  | colour (choice : ColourChoice)
  | config (path : Path)
  | template (path : Path)
  | output (mode : OutputMode)
  | format (format : SignatureFormat)
  | kind (kind : ScaffoldKind)
  deriving DecidableEq

/-- The option that states a setting. -/
def Setting.name : Setting → OptionName
  | .quiet => .quiet
  | .verbose => .verbose
  | .colour _ => .colour
  | .config _ => .config
  | .template _ => .template
  | .output _ => .output
  | .format _ => .format
  | .kind _ => .kind

/-- Why a command line makes no sense. -/
inductive UsageError
  | unknownOption (text : String)
  | unexpectedWord (word : String)
  | repeatedOption (name : OptionName)
  | missingValue (name : OptionName)
  | invalidValue (name : OptionName) (value : String)
  /-- A flag has a value attached. -/
  | attachedValue (name : OptionName) (value : String)
  | missingOption (name : OptionName)
  | missingWord (what : String)
  /-- A word that names a file is empty. -/
  | emptyWord (what : String)
  | missingCommand
  deriving DecidableEq

/-- What ends the reading of a command line early. -/
inductive Halt
  | version
  | help
  | misuse (error : UsageError)
  deriving DecidableEq

/-- What giving an option does. -/
inductive OptionRule
  | flag (setting : Setting)
  | valued (read? : String → Option Setting)
  | halt (cause : Halt)

/-! ## Values -/

/-- The item of a list that a word stands for. -/
def choice? {α : Type} (word : α → String) (all : List α) (text : String) : Option α :=
  all.find? (word · == text)

/-- A value that names a file must not be empty. -/
def file? (text : String) : Option Path := if text.isEmpty then none else some ⟨text⟩

namespace OptionName

def all : List OptionName :=
  [.quiet, .verbose, .colour, .config, .template, .output, .format, .kind, .version, .help]

def long : OptionName → String
  | .quiet => "quiet"
  | .verbose => "verbose"
  | .colour => "color"
  | .config => "config"
  | .template => "template"
  | .output => "output"
  | .format => "format"
  | .kind => "kind"
  | .version => "version"
  | .help => "help"

def short? : OptionName → Option Char
  | .quiet => some 'q'
  | .verbose => some 'v'
  | .colour => none
  | .config => none
  | .template => some 't'
  | .output => some 'o'
  | .format => some 'f'
  | .kind => some 'k'
  | .version => some 'V'
  | .help => some 'h'

/-- The option as messages show it. -/
def text (name : OptionName) : String := "--" ++ name.long

/-- What giving an option does. The empty path may stand for a configuration file: it is one that
cannot be read. -/
def rule : OptionName → OptionRule
  | .quiet => .flag .quiet
  | .verbose => .flag .verbose
  | .colour => .valued fun v => (choice? ColourChoice.word ColourChoice.all v).map .colour
  | .config => .valued fun v => some (.config ⟨v⟩)
  | .template => .valued fun v => (file? v).map .template
  | .output => .valued fun v => (OutputMode.ofWord? v).map .output
  | .format => .valued fun v => (choice? SignatureFormat.word SignatureFormat.all v).map .format
  | .kind => .valued fun v => (choice? ScaffoldKind.word ScaffoldKind.all v).map .kind
  | .version => .halt .version
  | .help => .halt .help

end OptionName

/-! ## Messages -/

def UsageError.message : UsageError → String
  | .unknownOption text => "unexpected option '" ++ text ++ "'"
  | .unexpectedWord word => "unexpected argument '" ++ word ++ "'"
  | .repeatedOption name => "option '" ++ name.text ++ "' is given more than once"
  | .missingValue name => "option '" ++ name.text ++ "' needs a value"
  | .invalidValue name value => "invalid value '" ++ value ++ "' for option '" ++ name.text ++ "'"
  | .attachedValue name value =>
    "unexpected value '" ++ value ++ "' for option '" ++ name.text ++ "'"
  | .missingOption name => "option '" ++ name.text ++ "' is required"
  | .missingWord what => "missing argument: " ++ what
  | .emptyWord what => "empty argument: " ++ what
  | .missingCommand => "missing command"

end VerilogScaffold.CommandLine
