import VerilogScaffold.Signature.Outline

/-!
# Reading outlines by index

`Outline.ofTokens` hands lists of tokens on, from one reader to the next, and so cannot read where
there is nothing. Extraction runs `Outline.ofTokens?`, which leaves the tokens where they are and
moves an index over them. Each step of it that could go wrong answers `none` when it does: a token
asked for outside the array, a depth taken below zero, and a loop that goes round without moving on.

## Shape of the scan

A `Scanner` is the array of all tokens and the index of the `endmodule` that ends the module.
Whoever asks for a token at or past that index is given the `endmodule`, and no index moves past it.
A reader takes the index it starts at and returns what it found with the index it stopped at.
-/

namespace VerilogScaffold

/-- The tokens to scan, and the index of the `endmodule` at which the scan ends. -/
structure Scanner (Place : Type) where
  tokens : Array (Lexeme Place)
  stop : Nat

namespace Scanner

variable {Place : Type} (s : Scanner Place)

/-- The token at an index, or the `endmodule` for an index past it. -/
def token? (i : Nat) : Option (Lexeme Place) := s.tokens[min i s.stop]?

/-- The token before an index; the first token has itself before it. -/
def previous? (i : Nat) : Option (Lexeme Place) := s.tokens[i - 1]?

/-- The index after an index, but none past the `endmodule`. -/
def next (i : Nat) : Nat := if i < s.stop then i + 1 else i

/-- Whether a loop that was at `i` and is at `j` has moved on, and will not do so for ever. -/
def Advances (i j : Nat) : Prop := i < s.stop ∧ i < j

instance (i j : Nat) : Decidable (s.Advances i j) := inferInstanceAs (Decidable (_ ∧ _))

/-! ## Bracket groups and expressions -/

/-- Scans a bracket group from index `i` on, where `depth` of its brackets are open. Returns its
ends: the last token is its closing bracket, or the one before the semicolon or `endmodule` that
cuts the group short. -/
def groupFrom? (first : Lexeme Place) (depth : Nat) (i : Nat) : Option (Extent Place × Nat) :=
  if i < s.stop then do
    let t ← s.token? i
    match t.kind with
    | .opening .square => groupFrom? first (depth + 1) (i + 1)
    | .closing .square =>
      if depth - 1 = 0 then some (⟨first, t⟩, i + 1) else groupFrom? first (depth - 1) (i + 1)
    | .semicolon => return (⟨first, ← s.previous? i⟩, i)
    | _ => groupFrom? first depth (i + 1)
  else do return (⟨first, ← s.previous? i⟩, i)
termination_by s.stop - i

/-- Scans the bracket group that starts at an index. -/
def group? (i : Nat) : Option (Extent Place × Nat) := do
  let first ← s.token? i
  s.groupFrom? first 0 i

/-- The bracket depth after a token of an expression, or the end of the expression. Fails where the
depth would have to go below zero. -/
def depthStep? (depth : Nat) : TokenKind → Option (Option Nat)
  | .opening _ => some (some (depth + 1))
  | .closing _ =>
    if depth = 0 then some none
    else if 1 ≤ depth then some (some (depth - 1)) else none
  | .semicolon => some none
  | .comma | .keyword .parameter | .keyword .localparam | .keyword (.direction _) =>
    some (if depth = 0 then none else some depth)
  | _ => some (some depth)

/-- Scans an expression from index `i` on, where `depth` brackets are open and `run` is the extent
of what was scanned before. -/
def expressionFrom? (depth : Nat) (run : Option (Extent Place)) (i : Nat) :
    Option (Option (Extent Place) × Nat) :=
  if i < s.stop then do
    let t ← s.token? i
    match ← depthStep? depth t.kind with
    | some d => expressionFrom? d (some ⟨(run.map Extent.first).getD t, t⟩) (i + 1)
    | none => some (run, i)
  else some (run, i)
termination_by s.stop - i

/-! ## Types -/

/-- Whether the word at an index names a type. -/
def isTypeName? (i : Nat) : Option Bool := do
  let word ← s.token? i
  if word.kind.isTypeWord then
    let next ← s.token? (i + 1)
    return next.kind.isIdentifier || next.kind.isQualifier
  else return false

/-- Scans the type in front of a name. Returns the extent of its bracket groups. -/
def typeFrom? (range : Option (Extent Place)) (i : Nat) : Option (Option (Extent Place) × Nat) := do
  let t ← s.token? i
  if t.kind = .opening .square then
    let (group, j) ← s.group? i
    if s.Advances i j then typeFrom? (some (Outline.widen range group.first group.last)) j else none
  else
    let named ← s.isTypeName? i
    if t.kind.isQualifier || named then
      if s.Advances i (s.next i) then typeFrom? range (s.next i) else none
    else return (range, i)
termination_by s.stop - i
decreasing_by all_goals grind [Advances]

/-- Steps over the bracket groups that start at an index. -/
def skipGroups? (i : Nat) : Option Nat := do
  let t ← s.token? i
  if t.kind = .opening .square then
    let (_, j) ← s.group? i
    if s.Advances i j then skipGroups? j else none
  else return i
termination_by s.stop - i
decreasing_by all_goals grind [Advances]

/-! ## Clauses -/

/-- What the value of a parameter amounts to. -/
def parameterFinding (name : Lexeme Place) : Option (Extent Place) → Finding Place
  | some value => .parameter name value
  | none => .remark (.parameterWithEmptyValue name)

/-- Whether the token at an index is of a kind, and not the `endmodule`. -/
def eats? (kind : TokenKind) (i : Nat) : Option Bool := do
  let t ← s.token? i
  return t.kind == kind && decide (i < s.stop)

/-- Whether a comma, a name and `=` follow from an index on. -/
def continuesParameters? (i : Nat) : Option Bool := do
  let comma ← s.token? i
  let name ← s.token? (i + 1)
  let equals ← s.token? (i + 2)
  return comma.kind == .comma && name.kind.isIdentifier && equals.kind == .equals

/-- Scans one parameter after its type. Returns what was found, the index after it, and whether one
more parameter follows there. -/
def parameterItem? (keyword : Lexeme Place) (i : Nat) : Option (Finding Place × Nat × Bool) := do
  let name ← s.token? i
  if name.kind.isIdentifier then
    let j := s.next i
    if ← s.eats? .equals j then
      let (value, k) ← s.expressionFrom? 0 none (s.next j)
      return (parameterFinding name value, k, ← s.continuesParameters? k)
    else return (.remark (.parameterWithoutValue name), j, false)
  else return (.remark (.parameterWithoutName keyword), i, false)

/-- Scans the parameters of a clause after its keyword. -/
def parameterClause? (keyword : Lexeme Place) (i : Nat) : Option (List (Finding Place) × Nat) := do
  let (_, j) ← s.typeFrom? none i
  let (found, k, goesOn) ← s.parameterItem? keyword j
  if goesOn then
    if s.Advances i (s.next k) then
      let (more, l) ← parameterClause? keyword (s.next k)
      return (found :: more, l)
    else none
  else return ([found], k)
termination_by s.stop - i
decreasing_by grind [Advances]

/-- Scans what follows the name of a port. Returns whether there is a default. -/
def portTail? (i : Nat) : Option (Bool × Nat) := do
  let j ← s.skipGroups? i
  if ← s.eats? .equals j then
    let (_, k) ← s.expressionFrom? 0 none (s.next j)
    return (true, k)
  else return (false, j)

/-- Whether a comma and a name follow from an index on. -/
def continuesPorts? (i : Nat) : Option Bool := do
  let comma ← s.token? i
  let name ← s.token? (i + 1)
  return comma.kind == .comma && name.kind.isIdentifier

/-- Scans the ports of a clause after its type. -/
def portNames? (direction : Direction) (range : Option (Extent Place)) (i : Nat) :
    Option (List (Finding Place) × Nat) := do
  let name ← s.token? i
  if name.kind.isIdentifier && decide (i < s.stop) then
    let (hasDefault, j) ← s.portTail? (s.next i)
    let found := Outline.portFindings direction range name hasDefault
    if ← s.continuesPorts? j then
      if s.Advances i (s.next j) then
        let (more, k) ← portNames? direction range (s.next j)
        return (found ++ more, k)
      else none
    else return (found, j)
  else return ([], i)
termination_by s.stop - i
decreasing_by grind [Advances]

/-- Scans a port clause after its direction keyword. -/
def portClause? (direction : Direction) (keyword : Lexeme Place) (i : Nat) :
    Option (List (Finding Place) × Nat) := do
  let (range, j) ← s.typeFrom? none i
  let (found, k) ← s.portNames? direction range j
  return (if found.isEmpty then [.remark (.noPorts direction keyword range)] else found, k)

/-! ## Modules -/

/-- Scans the body of a module. -/
def bodyFrom? (i : Nat) : Option (List (Finding Place)) :=
  if i < s.stop then do
    let t ← s.token? i
    let (found, j) ←
      match t.kind with
      | .keyword .parameter => s.parameterClause? t (s.next i)
      | .keyword (.direction d) => s.portClause? d t (s.next i)
      | _ => some ([], s.next i)
    if s.Advances i j then return found ++ (← bodyFrom? j) else none
  else some []
termination_by s.stop - i
decreasing_by grind [Advances]

/-- Scans a module whose `module` keyword stands before an index. -/
def outline? (i : Nat) : Option (Except (ExtractError Place) (Outline Place)) := do
  let name ← s.token? i
  if decide (s.stop ≤ i) || !name.kind.isIdentifier then return .error (.missingName name)
  else return .ok ⟨name, ← s.bodyFrom? (s.next i)⟩

end Scanner

/-- The outline of the first module among some tokens, scanned by index. The scan fails where a step
of it goes wrong. -/
def Outline.ofTokens? {Place : Type} (ts : List (Lexeme Place)) :
    Option (Except (ExtractError Place) (Outline Place)) :=
  match ts.findIdx? (·.kind == .keyword .moduleOpen) with
  | none => some (.error .noModule)
  | some opener => do
    let body ← Lexeme.from? ts.toArray (opener + 1)
    match body.findIdx? (·.kind == .keyword .moduleClose) with
    | some length => Scanner.outline? ⟨ts.toArray, opener + 1 + length⟩ (opener + 1)
    | none => do
      let keyword ← ts.toArray[opener]?
      return .error (.missingEndmodule keyword)

end VerilogScaffold
