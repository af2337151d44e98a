/-!
# Module signatures

The signature of a module is what an instantiation needs to know of it: its name, its parameters
with their default expressions, and its ports by direction. Expressions and ranges are kept as the
source spells them; nothing is evaluated.
-/

namespace VerilogScaffold

/-- Which way a port passes values. -/
inductive Direction
  | input
  | output
  | inout
  deriving DecidableEq, Inhabited

/-- The keyword that declares ports of this direction. -/
def Direction.keyword : Direction → String
  | .input => "input"
  | .output => "output"
  | .inout => "inout"

/-- Every direction, in the order in which ports are listed. -/
def Direction.all : List Direction := [.input, .output, .inout]

/-- A module parameter with its unevaluated default expression. -/
structure Parameter where
  name : String
  value : String
  deriving DecidableEq, Inhabited

/-- A module port. The range is its text, brackets included, and empty for a scalar. -/
structure Port where
  name : String
  range : String
  deriving DecidableEq, Inhabited

def Port.isScalar (p : Port) : Bool := p.range.isEmpty

/-- What an instantiation needs to know of a module. Each list is in declaration order, and
duplicates are kept. -/
structure Signature where
  name : String
  parameters : List Parameter
  inputs : List Port
  outputs : List Port
  inouts : List Port
  deriving DecidableEq, Inhabited

namespace Signature

/-- The ports of one direction. -/
def ports (s : Signature) : Direction → List Port
  | .input => s.inputs
  | .output => s.outputs
  | .inout => s.inouts

/-- All ports: inputs, then outputs, then inouts. -/
def allPorts (s : Signature) : List Port := Direction.all.flatMap s.ports

theorem mem_allPorts {s : Signature} {p : Port} : p ∈ s.allPorts ↔ ∃ d, p ∈ s.ports d := by
  rw [allPorts, List.mem_flatMap]
  exact ⟨fun ⟨d, _, hp⟩ => ⟨d, hp⟩, fun ⟨d, hp⟩ => ⟨d, by cases d <;> decide, hp⟩⟩

def portCount (s : Signature) : Nat := s.inputs.length + s.outputs.length + s.inouts.length

end Signature

end VerilogScaffold
