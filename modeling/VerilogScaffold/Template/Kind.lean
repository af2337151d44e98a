/-!
# Kinds of generated text

Two kinds of text are generated from a module's signature, each from templates of its own.
-/

namespace VerilogScaffold

/-- What is generated from a signature. -/
inductive ScaffoldKind
  /-- An instantiation, to paste into a parent design. -/
  | instantiation
  /-- A testbench module around one instance. -/
  | testbench
  deriving DecidableEq, Inhabited

namespace ScaffoldKind

/-- Both kinds. -/
def all : List ScaffoldKind := [.instantiation, .testbench]

/-- The word for a kind in configuration files, on the command line and in messages. -/
def word : ScaffoldKind → String
  | .instantiation => "instance"
  | .testbench => "testbench"

/-- What follows a template's name in the name of its file. -/
def suffix (kind : ScaffoldKind) : String := "_" ++ kind.word

end ScaffoldKind

end VerilogScaffold
