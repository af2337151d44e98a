import VerilogScaffold.Signature.Basic
import VerilogScaffold.Text.Blank
import VerilogScaffold.Text.Layout

/-!
# Blocks of generated text

A template is filled with blocks: aligned lists with one entry for each parameter or port. Each
block is given by its entries; the block's text joins them.

An escaped identifier ends only at a blank, so wherever a name is written it carries a space if it
would otherwise run into what follows.
-/

namespace VerilogScaffold

open Text

/-- A name as generated text writes it. -/
def terminatedName (name : String) : String :=
  match name.toList, name.toList.getLast? with
  | '\\' :: _, some last => if isBlank last then name else name ++ " "
  | _, _ => name

namespace Parameter

/-- The name as generated text writes it. -/
def writtenName (p : Parameter) : String := terminatedName p.name

end Parameter

namespace Port

/-- The name as generated text writes it. -/
def writtenName (p : Port) : String := terminatedName p.name

end Port

namespace Block

/-! ## Entries -/

/-- A declaration for each parameter, with names and values in columns. -/
def parameterDeclarations (ps : List Parameter) : List String :=
  let names := widest (ps.map Parameter.writtenName)
  let values := widest (ps.map Parameter.value)
  ps.map fun p =>
    "parameter " ++ padRight names p.writtenName ++ " = " ++ padRight values p.value ++ ";"

/-- A connection of a name to the signal of the same name. -/
def connection (width : Nat) (name : String) : String :=
  "    ." ++ padRight width name ++ "(" ++ padRight width name ++ ")"

/-- A connection for each parameter, to the parameter of the same name. -/
def parameterConnections (ps : List Parameter) : List String :=
  let names := ps.map Parameter.writtenName
  names.map (connection (widest names))

/-- The keyword that declares the signal that stands in for a port: what drives an input is
a variable, the rest are nets. -/
def signalKeyword : Direction → String
  | .input => "reg"
  | .output | .inout => "wire"

/-- What follows the name in the declaration of a port's signal: what drives an input starts at
zero. -/
def signalInitializer : Direction → String
  | .input => " = 0"
  | .output | .inout => ""

/-- A signal declaration for each port, with keywords, ranges and names in columns. -/
def portDeclarations (direction : Direction) (ps : List Port) : List String :=
  let ranges := widest (ps.map Port.range) + 1
  let names := widest (ps.map Port.writtenName)
  ps.map fun p =>
    padRight 5 (signalKeyword direction) ++ padRight ranges p.range ++
      padRight names p.writtenName ++ signalInitializer direction ++ ";"

/-- The connections of the ports of each direction. All directions share one column of names. -/
def portConnections (s : Signature) : List (List String) :=
  let width := widest (s.allPorts.map Port.writtenName)
  Direction.all.map fun d => (s.ports d).map fun p => connection width p.writtenName

theorem exists_of_mem_parameterConnections {ps : List Parameter} {entry : String}
    (h : entry ∈ parameterConnections ps) :
    ∃ p ∈ ps, entry = connection (widest (ps.map Parameter.writtenName)) p.writtenName := by
  obtain ⟨name, hname, rfl⟩ := List.mem_map.1 h
  obtain ⟨p, hp, rfl⟩ := List.mem_map.1 hname
  exact ⟨p, hp, rfl⟩

theorem exists_of_mem_portConnections {s : Signature} {group : List String} {entry : String}
    (hgroup : group ∈ portConnections s) (h : entry ∈ group) :
    ∃ p ∈ s.allPorts, entry =
      connection (widest (s.allPorts.map Port.writtenName)) p.writtenName := by
  obtain ⟨d, -, rfl⟩ := List.mem_map.1 hgroup
  obtain ⟨p, hp, rfl⟩ := List.mem_map.1 h
  exact ⟨p, Signature.mem_allPorts.2 ⟨d, hp⟩, rfl⟩

/-! ## Blocks -/

/-- The parameter declarations, a line each. -/
def parameterDeclaration (ps : List Parameter) : String := joinWith "\n" (parameterDeclarations ps)

/-- The list of parameter overrides of an instance; no parameters, no list. -/
def parameterDefinition (ps : List Parameter) : String :=
  if ps.isEmpty then "" else "#(\n" ++ joinWith ",\n" (parameterConnections ps) ++ "\n)"

/-- The signal declarations for the ports of a direction, a line each. -/
def portDeclaration (direction : Direction) (ps : List Port) : String :=
  joinWith "\n" (portDeclarations direction ps)

/-- The list of port connections of an instance. A blank line stands between the directions that
have ports. -/
def portConnection (s : Signature) : String :=
  joinWith ",\n\n" (((portConnections s).filter (!·.isEmpty)).map (joinWith ",\n"))

end Block

end VerilogScaffold
