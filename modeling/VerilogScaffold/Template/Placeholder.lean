import VerilogScaffold.Template.Block

/-!
# Placeholders

A template is plain text with placeholders, names in braces after a dollar sign. Seven names are
known; any other such sequence is text like the rest.

Substitution reads a template once from left to right. What a placeholder stands for goes to the
output and is never read again, so a signature whose names look like placeholders cannot set off
another substitution.
-/

namespace VerilogScaffold

/-- The placeholders that templates may hold. -/
inductive Placeholder
  | moduleName
  | parameterDeclaration
  | parameterDefinition
  | inputDeclaration
  | outputDeclaration
  | inoutDeclaration
  | portConnection
  deriving DecidableEq

namespace Placeholder

/-- Every placeholder. -/
def all : List Placeholder :=
  [.moduleName, .parameterDeclaration, .parameterDefinition, .inputDeclaration, .outputDeclaration,
    .inoutDeclaration, .portConnection]

/-- The name of a placeholder. -/
def name : Placeholder → String
  | .moduleName => "MODULE_NAME"
  | .parameterDeclaration => "PARAMETER_DECLARATION"
  | .parameterDefinition => "PARAMETER_DEFINITION"
  | .inputDeclaration => "INPUT_DECLARATION"
  | .outputDeclaration => "OUTPUT_DECLARATION"
  | .inoutDeclaration => "INOUT_DECLARATION"
  | .portConnection => "PORT_CONNECTION"

/-- The placeholder of a name, if it is one. -/
def ofName? (name : String) : Option Placeholder := all.find? (·.name == name)

/-- A placeholder as a template writes it. -/
def written (p : Placeholder) : String := "$\x7b" ++ p.name ++ "\x7d"

/-- The text a placeholder stands for. -/
def expand (s : Signature) : Placeholder → String
  | .moduleName => terminatedName s.name
  | .parameterDeclaration => Block.parameterDeclaration s.parameters
  | .parameterDefinition => Block.parameterDefinition s.parameters
  | .inputDeclaration => Block.portDeclaration .input s.inputs
  | .outputDeclaration => Block.portDeclaration .output s.outputs
  | .inoutDeclaration => Block.portDeclaration .inout s.inouts
  | .portConnection => Block.portConnection s

/-- The placeholder whose name comes next and is closed by a brace, and the text after that brace.
The name is all that stands before the first closing brace. -/
def closed? (cs : List Char) : Option (Placeholder × List Char) :=
  match cs.dropWhile (· != '\x7d') with
  | [] => none
  | _ :: rest => (ofName? (String.ofList (cs.takeWhile (· != '\x7d')))).map (·, rest)

theorem length_closed?_lt {cs rest : List Char} {p : Placeholder}
    (h : closed? cs = some (p, rest)) :
    rest.length < cs.length := by
  unfold closed? at h
  split at h
  · simp at h
  · rename_i c after heq
    obtain ⟨q, _, hq⟩ := Option.map_eq_some_iff.1 h
    obtain ⟨-, rfl⟩ := Prod.mk.inj hq
    have := (List.dropWhile_sublist (· != '\x7d') (l := cs)).length_le
    simp only [heq, List.length_cons] at this
    omega

/-- Replaces every placeholder in a text. -/
def substitute (s : Signature) : List Char → List Char
  | '$' :: '\x7b' :: cs =>
    match _h : closed? cs with
    | some (p, rest) => (p.expand s).toList ++ substitute s rest
    | none => '$' :: '\x7b' :: substitute s cs
  | c :: cs => c :: substitute s cs
  | [] => []
termination_by cs => cs.length
decreasing_by
  · have := length_closed?_lt _h
    simp only [List.length_cons]
    omega
  · simp only [List.length_cons]
    omega
  · simp

end Placeholder

end VerilogScaffold
