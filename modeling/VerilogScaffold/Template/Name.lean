/-!
# Names of templates

A custom template has a name that is also part of its file's name, so only letters, digits, `_` and
`-` may stand in it. One name is taken: that of the template that comes with the program.
-/

namespace VerilogScaffold.Template

/-- The name of the bundled template of each kind. -/
def defaultName : String := "default"

/-- Whether a name consists of letters, digits, `_` and `-`, and is not empty. -/
def isValidName (name : String) : Bool :=
  !name.isEmpty && name.toList.all fun c => c.isAlphanum || c == '_' || c == '-'

/-- What is said of a name that is not valid. -/
def invalidNameMessage (name : String) : String :=
  "invalid template name '" ++ name ++ "': only letters, digits, '_' and '-' are allowed"

end VerilogScaffold.Template
