import VerilogScaffold.Token.Basic

/-!
# Outlines of modules

The outline of a module says which of its tokens are its name, the names and values of its
parameters, and the names and ranges of its ports. It is read off the kinds of the tokens alone: no
text is looked at, and a token's place is only passed along. What the tokens say is looked up
afterwards.

## Shape of the reading

`Outline.ofTokens` finds the first `module` and the first `endmodule` after it, and reads the tokens
between them from left to right. `parameter` and the direction keywords start clauses; every other
token is stepped over. The module body is a list that ends where the module ends, so no clause can
read past it. Each clause returns what it found, in order, and the tokens after it; lemmas such as
`length_parameterClause_le` say that those are no more than it was given, which is why the reading
ends.
-/

namespace VerilogScaffold

/-- A run of tokens, given by its ends. -/
structure Extent (Place : Type) where
  first : Lexeme Place
  last : Lexeme Place
  deriving DecidableEq

/-- Why a source has no outline. -/
inductive ExtractError (Place : Type)
  /-- No `module` keyword. -/
  | noModule
  /-- No `endmodule` after the first `module` keyword, which is given. -/
  | missingEndmodule (opener : Lexeme Place)
  /-- The first `module` keyword is followed by the given token, which is no name. -/
  | missingName (found : Lexeme Place)
  deriving DecidableEq

/-- Something read in a module that the outline leaves out. -/
inductive Remark (Place : Type)
  /-- A `parameter` keyword without a name. -/
  | parameterWithoutName (keyword : Lexeme Place)
  /-- The name of a parameter with no `=` after it. -/
  | parameterWithoutValue (name : Lexeme Place)
  /-- The name of a parameter with nothing after its `=`. -/
  | parameterWithEmptyValue (name : Lexeme Place)
  /-- The name of a port that has a default value. -/
  | portDefault (name : Lexeme Place)
  /-- A direction keyword that declares no port, and the range that stands behind it. -/
  | noPorts (direction : Direction) (keyword : Lexeme Place) (range : Option (Extent Place))
  deriving DecidableEq

/-- What the reading of a module comes upon. -/
inductive Finding (Place : Type)
  | parameter (name : Lexeme Place) (value : Extent Place)
  | port (direction : Direction) (name : Lexeme Place) (range : Option (Extent Place))
  | remark (remark : Remark Place)
  deriving DecidableEq

/-- The name of a module, and what its body holds, in order. -/
structure Outline (Place : Type) where
  name : Lexeme Place
  findings : List (Finding Place)
  deriving DecidableEq

namespace Outline

variable {Place : Type}

/-- Tokens that are still to be read. -/
abbrev Tokens (Place : Type) := List (Lexeme Place)

/-! ## Bracket groups and expressions -/

/-- The last token of a bracket group, and the tokens after the group. `depth` is the number of
brackets open besides the group's own, and `last` the token read before. A group that a semicolon or
the end of the module cuts short ends with the token before that. -/
def groupEnd (depth : Nat) (last : Lexeme Place) : Tokens Place → Lexeme Place × Tokens Place
  | [] => (last, [])
  | t :: ts =>
    match t.kind with
    | .opening .square => groupEnd (depth + 1) t ts
    | .closing .square =>
      match depth with
      | 0 => (t, ts)
      | d + 1 => groupEnd d t ts
    | .semicolon => (last, t :: ts)
    | _ => groupEnd depth t ts

theorem length_groupEnd_le (depth : Nat) (last : Lexeme Place) (ts : Tokens Place) :
    (groupEnd depth last ts).2.length ≤ ts.length := by
  fun_induction groupEnd depth last ts <;> simp_all only [List.length_cons] <;> grind

/-- The bracket depth after a token of an expression, or `none` if the token ends the expression: a
semicolon anywhere, and outside all brackets a closing bracket, a comma, or the keyword of another
declaration. Brackets of the three shapes are counted together. -/
def depthAfter? (depth : Nat) : TokenKind → Option Nat
  | .opening _ => some (depth + 1)
  | .closing _ =>
    match depth with
    | 0 => none
    | d + 1 => some d
  | .semicolon => none
  | .comma | .keyword .parameter | .keyword .localparam | .keyword (.direction _) =>
    if depth = 0 then none else some depth
  | _ => some depth

/-- Splits tokens after the expression they start with. -/
def splitExpression (depth : Nat) : Tokens Place → Tokens Place × Tokens Place
  | [] => ([], [])
  | t :: ts =>
    match depthAfter? depth t.kind with
    | some d => (t :: (splitExpression d ts).1, (splitExpression d ts).2)
    | none => ([], t :: ts)

/-- An expression and what follows it are all there was. -/
theorem splitExpression_append (depth : Nat) (ts : Tokens Place) :
    (splitExpression depth ts).1 ++ (splitExpression depth ts).2 = ts := by
  fun_induction splitExpression depth ts <;> simp_all

theorem length_splitExpression_le (depth : Nat) (ts : Tokens Place) :
    (splitExpression depth ts).2.length ≤ ts.length := by
  have := congrArg List.length (splitExpression_append depth ts)
  simp only [List.length_append] at this
  omega

/-- The extent of a run of tokens, unless it is empty. -/
def extent? : Tokens Place → Option (Extent Place)
  | [] => none
  | t :: ts => some ⟨t, ts.getLastD t⟩

/-! ## Types -/

/-- Whether a word names a type: it is directly followed by another name or by the keyword of a
type. -/
def isTypeName (word : TokenKind) : Tokens Place → Bool
  | [] => false
  | next :: _ => word.isTypeWord && (next.kind.isIdentifier || next.kind.isQualifier)

/-- Widens a range to the end of one more bracket group. -/
def widen (range : Option (Extent Place)) (first last : Lexeme Place) : Extent Place :=
  ⟨(range.map Extent.first).getD first, last⟩

/-- Steps over the type in front of a name: qualifiers, type names and bracket groups, in any order.
The range reaches from the first group to the last. -/
def splitType (range : Option (Extent Place)) : Tokens Place → Option (Extent Place) × Tokens Place
  | [] => (range, [])
  | t :: ts =>
    if t.kind = .opening .square then
      splitType (some (widen range t (groupEnd 0 t ts).1)) (groupEnd 0 t ts).2
    else if t.kind.isQualifier || isTypeName t.kind ts then splitType range ts
    else (range, t :: ts)
termination_by ts => ts.length
decreasing_by
  · have := length_groupEnd_le 0 t ts
    simp only [List.length_cons]
    omega
  · simp

theorem length_splitType_le (range : Option (Extent Place)) (ts : Tokens Place) :
    (splitType range ts).2.length ≤ ts.length := by
  fun_induction splitType range ts with
  | case1 => simp
  | case2 range t ts _ ih =>
    have := length_groupEnd_le 0 t ts
    simp only [List.length_cons]
    omega
  | case3 range t ts _ _ ih =>
    simp only [List.length_cons]
    omega
  | case4 => simp

/-- Steps over bracket groups: the unpacked dimensions after the name of a port. -/
def skipGroups : Tokens Place → Tokens Place
  | [] => []
  | t :: ts => if t.kind = .opening .square then skipGroups (groupEnd 0 t ts).2 else t :: ts
termination_by ts => ts.length
decreasing_by
  have := length_groupEnd_le 0 t ts
  simp only [List.length_cons]
  omega

theorem length_skipGroups_le (ts : Tokens Place) : (skipGroups ts).length ≤ ts.length := by
  fun_induction skipGroups ts with
  | case1 => simp
  | case2 t ts _ ih =>
    have := length_groupEnd_le 0 t ts
    simp only [List.length_cons]
    omega
  | case3 => simp

/-! ## Parameter clauses -/

/-- What the value of a parameter amounts to. -/
def parameterFinding (name : Lexeme Place) (value : Tokens Place) : Finding Place :=
  match extent? value with
  | some extent => .parameter name extent
  | none => .remark (.parameterWithEmptyValue name)

/-- Whether tokens go on with a comma, a name and `=`: one more parameter of the same clause. -/
def continuesParameters : Tokens Place → Bool
  | comma :: name :: equals :: _ =>
    comma.kind == .comma && name.kind.isIdentifier && equals.kind == .equals
  | _ => false

/-- Reads one parameter after its type. Returns what was found, the tokens after it, and whether
they go on with one more parameter. -/
def parameterItem (keyword : Lexeme Place) : Tokens Place → Finding Place × Tokens Place × Bool
  | [] => (.remark (.parameterWithoutName keyword), [], false)
  | name :: ts =>
    if name.kind.isIdentifier then
      match ts with
      | [] => (.remark (.parameterWithoutValue name), [], false)
      | equals :: rest =>
        if equals.kind = .equals then
          (parameterFinding name (splitExpression 0 rest).1, (splitExpression 0 rest).2,
            continuesParameters (splitExpression 0 rest).2)
        else (.remark (.parameterWithoutValue name), equals :: rest, false)
    else (.remark (.parameterWithoutName keyword), name :: ts, false)

theorem length_parameterItem_le (keyword : Lexeme Place) (ts : Tokens Place) :
    (parameterItem keyword ts).2.1.length ≤ ts.length := by
  unfold parameterItem
  split
  · simp
  · split
    · split
      · simp
      · split
        · rename_i rest _
          have := length_splitExpression_le 0 rest
          simp only [List.length_cons]
          omega
        · simp
    · simp

/-- A clause goes on only where tokens are left. -/
theorem parameterItem_rest_ne_nil {keyword : Lexeme Place} {ts : Tokens Place}
    (h : (parameterItem keyword ts).2.2 = true) : (parameterItem keyword ts).2.1 ≠ [] := by
  intro hnil
  unfold parameterItem at h hnil
  grind [continuesParameters]

/-- Reads the parameters of a clause after its keyword, and returns the tokens after the clause. -/
def parameterClause (keyword : Lexeme Place) (ts : Tokens Place) :
    List (Finding Place) × Tokens Place :=
  let item := parameterItem keyword (splitType none ts).2
  if item.2.2 then
    let more := parameterClause keyword (item.2.1.drop 1)
    (item.1 :: more.1, more.2)
  else ([item.1], item.2.1)
termination_by ts.length
decreasing_by
  rename_i hmore
  have h1 := length_splitType_le none ts
  have h2 := length_parameterItem_le keyword (splitType none ts).2
  have h3 := List.length_pos_iff.2 (parameterItem_rest_ne_nil hmore)
  simp only [List.length_drop]
  omega

theorem length_parameterClause_le (keyword : Lexeme Place) (ts : Tokens Place) :
    (parameterClause keyword ts).2.length ≤ ts.length := by
  fun_induction parameterClause keyword ts with
  | case1 ts item _ more ih =>
    have h1 := length_splitType_le none ts
    have h2 := length_parameterItem_le keyword (splitType none ts).2
    simp only [List.length_drop] at ih
    simp only [more, item] at *
    omega
  | case2 ts item _ =>
    have h1 := length_splitType_le none ts
    have h2 := length_parameterItem_le keyword (splitType none ts).2
    simp only [item] at *
    omega

/-! ## Port clauses -/

/-- Reads what follows the name of a port: dimensions, which belong to the name and not to the
range, and a default value. Returns whether there is a default, and the tokens after it. -/
def portTail (ts : Tokens Place) : Bool × Tokens Place :=
  match skipGroups ts with
  | [] => (false, [])
  | t :: rest => if t.kind = .equals then (true, (splitExpression 0 rest).2) else (false, t :: rest)

theorem length_portTail_le (ts : Tokens Place) : (portTail ts).2.length ≤ ts.length := by
  have h1 := length_skipGroups_le ts
  unfold portTail
  split
  · simp
  · rename_i t rest h
    have h2 := length_splitExpression_le 0 rest
    simp only [h, List.length_cons] at h1
    split
    · simp only
      omega
    · simpa using h1

/-- The findings for one port. -/
def portFindings (direction : Direction) (range : Option (Extent Place)) (name : Lexeme Place)
    (hasDefault : Bool) : List (Finding Place) :=
  (if hasDefault then [.remark (.portDefault name)] else []) ++ [.port direction name range]

/-- Whether tokens go on with a comma and a name: one more port of the same clause. -/
def continuesPorts : Tokens Place → Bool
  | comma :: name :: _ => comma.kind == .comma && name.kind.isIdentifier
  | _ => false

/-- Reads the ports of a clause after its type, and returns the tokens after the clause. -/
def portNames (direction : Direction) (range : Option (Extent Place)) :
    Tokens Place → List (Finding Place) × Tokens Place
  | [] => ([], [])
  | name :: ts =>
    if name.kind.isIdentifier then
      let found := portFindings direction range name (portTail ts).1
      if continuesPorts (portTail ts).2 then
        let more := portNames direction range ((portTail ts).2.drop 1)
        (found ++ more.1, more.2)
      else (found, (portTail ts).2)
    else ([], name :: ts)
termination_by ts => ts.length
decreasing_by
  have := length_portTail_le ts
  simp only [List.length_drop, List.length_cons]
  omega

theorem length_portNames_le (direction : Direction) (range : Option (Extent Place))
    (ts : Tokens Place) : (portNames direction range ts).2.length ≤ ts.length := by
  fun_induction portNames direction range ts with
  | case1 => simp
  | case2 name ts _ found _ more ih =>
    have := length_portTail_le ts
    simp only [List.length_drop, List.length_cons] at ih ⊢
    simp only [more]
    omega
  | case3 name ts _ found _ =>
    have := length_portTail_le ts
    simp only [List.length_cons]
    omega
  | case4 => simp

/-- Reads a port clause after its direction keyword. A clause that names no port is remarked on. -/
def portClause (direction : Direction) (keyword : Lexeme Place) (ts : Tokens Place) :
    List (Finding Place) × Tokens Place :=
  match portNames direction (splitType none ts).1 (splitType none ts).2 with
  | ([], rest) => ([.remark (.noPorts direction keyword (splitType none ts).1)], rest)
  | (found, rest) => (found, rest)

theorem length_portClause_le (direction : Direction) (keyword : Lexeme Place) (ts : Tokens Place) :
    (portClause direction keyword ts).2.length ≤ ts.length := by
  have h1 := length_splitType_le none ts
  have h2 := length_portNames_le direction (splitType none ts).1 (splitType none ts).2
  unfold portClause
  split <;> simp_all only <;> omega

/-! ## Module bodies -/

/-- Reads the body of a module. -/
def readBody : Tokens Place → List (Finding Place)
  | [] => []
  | t :: ts =>
    match t.kind with
    | .keyword .parameter =>
      (parameterClause t ts).1 ++ readBody (parameterClause t ts).2
    | .keyword (.direction d) =>
      (portClause d t ts).1 ++ readBody (portClause d t ts).2
    | _ => readBody ts
termination_by ts => ts.length
decreasing_by
  · have := length_parameterClause_le t ts
    simp only [List.length_cons]
    omega
  · have := length_portClause_le d t ts
    simp only [List.length_cons]
    omega
  · simp

/-- Reads the tokens that follow `opener`, the first `module` keyword. -/
def ofModule (opener : Lexeme Place) (ts : Tokens Place) :
    Except (ExtractError Place) (Outline Place) :=
  let isEnd : Lexeme Place → Bool := (·.kind == .keyword .moduleClose)
  match ts.takeWhile (!isEnd ·), ts.dropWhile (!isEnd ·) with
  | _, [] => .error (.missingEndmodule opener)
  | [], closer :: _ => .error (.missingName closer)
  | name :: body, _ :: _ =>
    if name.kind.isIdentifier then .ok ⟨name, readBody body⟩ else .error (.missingName name)

/-- Reads the outline of the first module among some tokens. -/
def ofTokens : Tokens Place → Except (ExtractError Place) (Outline Place)
  | [] => .error .noModule
  | t :: ts => if t.kind = .keyword .moduleOpen then ofModule t ts else ofTokens ts

end Outline

end VerilogScaffold
