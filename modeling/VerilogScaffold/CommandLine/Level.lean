import VerilogScaffold.CommandLine.Option

/-!
# Levels of the command line

The words of a command lead from level to level; each level has options of its own beside those that
every level has. On the last level of a command further words are its arguments.
-/

namespace VerilogScaffold.CommandLine

/-- What is done with templates. -/
inductive TemplateVerb
  | list
  | new
  | print
  | delete
  deriving DecidableEq

def TemplateVerb.all : List TemplateVerb := [.list, .new, .print, .delete]

def TemplateVerb.word : TemplateVerb → String
  | .list => "list"
  | .new => "new"
  | .print => "show"
  | .delete => "delete"

/-- How far the words of a command have led. -/
inductive Level
  | root
  | generate (kind : ScaffoldKind)
  | signature
  | template
  | action (verb : TemplateVerb)
  deriving DecidableEq

namespace Level

/-- The levels that a level leads to. -/
def next : Level → List Level
  | .root => ScaffoldKind.all.map .generate ++ [.signature, .template]
  | .template => TemplateVerb.all.map .action
  | _ => []

/-- The word that leads to a level. None leads to the first. -/
def word : Level → String
  | .root => ""
  | .generate kind => kind.word
  | .signature => "signature"
  | .template => "template"
  | .action verb => verb.word

/-- Where a word leads from a level. -/
def descend? (level : Level) (word : String) : Option Level := choice? Level.word level.next word

/-- Whether words on a level are arguments, and not only names of levels. -/
def takesArguments (level : Level) : Bool := level.next.isEmpty

/-- The options of a level. -/
def options : Level → List OptionName
  | .root => [.quiet, .verbose, .colour, .config, .help, .version]
  | .generate _ => [.quiet, .verbose, .colour, .config, .help, .template, .output]
  | .signature => [.quiet, .verbose, .colour, .config, .help, .format]
  | .template => [.quiet, .verbose, .colour, .config, .help]
  | .action _ => [.quiet, .verbose, .colour, .config, .help, .kind]

end Level

end VerilogScaffold.CommandLine
