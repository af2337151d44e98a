/-!
# Arguments

What an argument is, by its looks alone: `--` announces that only words follow, two dashes and a
name give a long option, one dash and more a cluster of short options, and everything else is a
word. A lone dash is a word.
-/

namespace VerilogScaffold.CommandLine

/-- An argument by its looks. -/
inductive Argument
  | separator
  /-- A name after two dashes, and what an equals sign attaches to it. -/
  | long (name : String) (attached? : Option String)
  /-- The characters after a dash. -/
  | cluster (cs : List Char)
  | word (text : String)
  deriving DecidableEq

/-- What a text looks like as an argument. -/
def Argument.ofString (text : String) : Argument :=
  match text.toList with
  | ['-', '-'] => .separator
  | '-' :: '-' :: cs =>
    let name := String.ofList (cs.takeWhile (· != '='))
    match cs.dropWhile (· != '=') with
    | [] => .long name none
    | _ :: attached => .long name (some (String.ofList attached))
  | '-' :: c :: cs => .cluster (c :: cs)
  | _ => .word text

end VerilogScaffold.CommandLine
