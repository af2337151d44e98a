import VerilogScaffold.Signature.Outline

/-!
# The header grammar

A module header in the sense of this grammar declares parameters and ports in its two lists and in
the statements of its body, and holds nothing else. It is a tree: each part carries the tokens it is
spelled with and the proofs that they are the right ones, and `tokens` spells the part out.

```
header    = module NAME [ #( parameters {, parameters} ) ] ( [ ports {, ports} ] ) ;
              { (parameters | ports) ; } endmodule
parameters = parameter type NAME = value {, NAME = value}
ports      = (input | output | inout) type NAME groups [= value] {, NAME groups [= value]}
type       = { qualifier | group | type word }
```

Values and groups are runs of tokens with their brackets closed. A value ends at a comma or at the
keyword of another declaration unless brackets enclose it. A type word is a name or a macro with a
name or a qualifier directly after it, which is all that tells it from the name declared (`Leads`).
-/

namespace VerilogScaffold

/-! ## Brackets -/

namespace TokenKind

def isOpening : TokenKind → Bool
  | .opening _ => true
  | _ => false

def isClosing : TokenKind → Bool
  | .closing _ => true
  | _ => false

/-- The tokens that separate a value from what follows it, where no brackets enclose them. -/
def isSeparator : TokenKind → Bool
  | .comma | .keyword .parameter | .keyword .localparam | .keyword (.direction _) => true
  | _ => false

theorem eq_of_isIdentifier {kind : TokenKind} (h : kind.isIdentifier = true) :
    kind = .identifier ∨ kind = .escapedIdentifier := by
  cases kind with
  | identifier => exact .inl rfl
  | escapedIdentifier => exact .inr rfl
  | _ => cases h

end TokenKind

namespace Header

variable {Place : Type}

/-- A token of a given kind. -/
abbrev Mark (Place : Type) (kind : TokenKind) := {t : Lexeme Place // t.kind = kind}

/-- A token that can name something: a plain or an escaped identifier. -/
abbrev Name (Place : Type) := {t : Lexeme Place // t.kind.isIdentifier = true}

/-- How many tokens are of a kind that satisfies a test. -/
def count (p : TokenKind → Bool) (ts : List (Lexeme Place)) : Nat := ts.countP (p ·.kind)

/-- Tokens that close `depth` brackets and all those they open: none of their beginnings closes more
than there are, and the whole leaves none. -/
structure Closed (opens closes : TokenKind → Bool) (depth : Nat)
    (ts : List (Lexeme Place)) : Prop where
  prefixes : ∀ before, before <+: ts → count closes before ≤ depth + count opens before
  whole : count closes ts = depth + count opens ts

/-- Tokens with no separator where no bracket is open, if `depth` brackets are open before them. -/
def Joined (depth : Nat) (ts : List (Lexeme Place)) : Prop :=
  ∀ before t, before ++ [t] <+: ts →
    count TokenKind.isClosing before = depth + count TokenKind.isOpening before →
      t.kind.isSeparator = false

/-- Tokens without brackets are closed. -/
theorem Closed.of_noBracket {opens closes : TokenKind → Bool} {ts : List (Lexeme Place)}
    (h : ∀ t ∈ ts, opens t.kind = false ∧ closes t.kind = false) : Closed opens closes 0 ts := by
  have hcloses : ∀ before, before <+: ts → count closes before = 0 := fun before hbefore =>
    List.countP_eq_zero.2 fun t ht => by simp [(h t (hbefore.subset ht)).2]
  have hopens : count opens ts = 0 := List.countP_eq_zero.2 fun t ht => by simp [(h t ht).1]
  refine ⟨fun before hbefore => ?_, ?_⟩
  · rw [hcloses before hbefore]
    exact Nat.zero_le _
  · rw [hcloses ts List.prefix_rfl, hopens]

/-- Tokens among which no statement and no module ends. -/
def Enclosed (ts : List (Lexeme Place)) : Prop :=
  ∀ t ∈ ts, t.kind ≠ .semicolon ∧ t.kind ≠ .keyword .moduleClose

instance (ts : List (Lexeme Place)) : Decidable (Enclosed ts) :=
  inferInstanceAs (Decidable (∀ t ∈ ts, _))

/-- A group in square brackets. -/
structure Group (Place : Type) where
  opening : Mark Place (.opening .square)
  inner : List (Lexeme Place)
  closing : Mark Place (.closing .square)
  closed : Closed (· == .opening .square) (· == .closing .square) 0 inner
  enclosed : Enclosed inner

def Group.tokens (g : Group Place) : List (Lexeme Place) :=
  g.opening.1 :: (g.inner ++ [g.closing.1])

/-- A value: brackets of all shapes are counted together. -/
structure Value (Place : Type) where
  tokens : List (Lexeme Place)
  ne_nil : tokens ≠ []
  closed : Closed TokenKind.isOpening TokenKind.isClosing 0 tokens
  enclosed : Enclosed tokens
  joined : Joined 0 tokens

/-- A value without brackets and separators. -/
def Value.plain (first : Lexeme Place) (more : List (Lexeme Place))
    (hbracket : ∀ t ∈ first :: more, t.kind.isOpening = false ∧ t.kind.isClosing = false)
    (henclosed : Enclosed (first :: more))
    (hseparator : ∀ t ∈ first :: more, t.kind.isSeparator = false) : Value Place where
  tokens := first :: more
  ne_nil := List.cons_ne_nil first more
  closed := .of_noBracket hbracket
  enclosed := henclosed
  joined before t hbefore _ := hseparator t (hbefore.subset (by simp))

/-- A value reaches from its first token to its last. -/
def Value.extent (v : Value Place) :
    Extent Place := ⟨v.tokens.head v.ne_nil, v.tokens.getLast v.ne_nil⟩

/-! ## Types -/

/-- A part of a type. -/
inductive TypePart (Place : Type)
  | qualifier (t : {t : Lexeme Place // t.kind.isQualifier = true})
  | group (g : Group Place)
  | word (t : {t : Lexeme Place // t.kind.isTypeWord = true})

namespace TypePart

def tokens : TypePart Place → List (Lexeme Place)
  | qualifier t => [t.1]
  | group g => g.tokens
  | word t => [t.1]

def group? : TypePart Place → Option (Group Place)
  | group g => some g
  | _ => none

end TypePart

/-- Each type word has a name or a qualifier directly after it, be it in the type or the name
declared. -/
def Leads (type : List (TypePart Place)) (name : Name Place) : Prop :=
  ∀ before word after, type = before ++ .word word :: after →
    ∃ next rest, after.flatMap TypePart.tokens ++ [name.1] = next :: rest ∧
      (next.kind.isIdentifier = true ∨ next.kind.isQualifier = true)

/-- A type without words leads to any name. -/
theorem Leads.of_noWord {type : List (TypePart Place)} {name : Name Place}
    (h : ∀ word, TypePart.word word ∉ type) : Leads type name := by
  rintro before word after rfl
  exact absurd (List.mem_append_right before (List.mem_cons_self ..)) (h word)

/-- The range of a type: from the start of its first group to the end of its last. -/
def range (type : List (TypePart Place)) : Option (Extent Place) :=
  match type.filterMap TypePart.group? with
  | [] => none
  | g :: gs => some ⟨g.opening.1, (gs.getLastD g).closing.1⟩

/-! ## Clauses -/

/-- One thing or more, with commas between them. -/
structure Separated (Place A : Type) where
  first : A
  more : List (Mark Place .comma × A)

namespace Separated

variable {A : Type}

def items (s : Separated Place A) : List A := s.first :: s.more.map Prod.snd

/-- Spells the things out, and the commas between them. -/
def tokens (spell : A → List (Lexeme Place)) (s : Separated Place A) : List (Lexeme Place) :=
  spell s.first ++ s.more.flatMap fun x => x.1.1 :: spell x.2

end Separated

/-- A parameter of a clause. -/
structure ParameterItem (Place : Type) where
  name : Name Place
  equals : Mark Place .equals
  value : Value Place

def ParameterItem.tokens (i : ParameterItem Place) : List (Lexeme Place) :=
  i.name.1 :: i.equals.1 :: i.value.tokens

/-- A port of a clause: its name, its dimensions, and its default value. -/
structure PortItem (Place : Type) where
  name : Name Place
  dimensions : List (Group Place)
  default : Option (Mark Place .equals × Value Place)

namespace PortItem

/-- What stands after the name of a port. -/
def tail (i : PortItem Place) : List (Lexeme Place) :=
  i.dimensions.flatMap Group.tokens ++
    (i.default.map fun d => d.1.1 :: d.2.tokens).getD []

def tokens (i : PortItem Place) : List (Lexeme Place) := i.name.1 :: i.tail

end PortItem

/-- A clause that declares parameters. -/
structure ParameterClause (Place : Type) where
  keyword : Mark Place (.keyword .parameter)
  type : List (TypePart Place)
  items : Separated Place (ParameterItem Place)
  leads : Leads type items.first.name

namespace ParameterClause

def tokens (c : ParameterClause Place) : List (Lexeme Place) :=
  c.keyword.1 :: (c.type.flatMap TypePart.tokens ++ c.items.tokens ParameterItem.tokens)

/-- The names that a clause declares, each with the extent of its value. -/
def entries (c : ParameterClause Place) : List (Lexeme Place × Extent Place) :=
  c.items.items.map fun i => (i.name.1, i.value.extent)

end ParameterClause

/-- A clause that declares ports. -/
structure PortClause (Place : Type) where
  direction : Direction
  keyword : Mark Place (.keyword (.direction direction))
  type : List (TypePart Place)
  items : Separated Place (PortItem Place)
  leads : Leads type items.first.name

namespace PortClause

def tokens (c : PortClause Place) : List (Lexeme Place) :=
  c.keyword.1 :: (c.type.flatMap TypePart.tokens ++ c.items.tokens PortItem.tokens)

/-- The names that a clause declares, each with the range of the clause. -/
def entries (c : PortClause Place) : List (Lexeme Place × Option (Extent Place)) :=
  c.items.items.map fun i => (i.name.1, range c.type)

end PortClause

/-- A clause of a header. -/
inductive Clause (Place : Type)
  | parameter (c : ParameterClause Place)
  | port (c : PortClause Place)

namespace Clause

def tokens : Clause Place → List (Lexeme Place)
  | parameter c => c.tokens
  | port c => c.tokens

/-- The parameters that a clause declares. -/
def parameters : Clause Place → List (Lexeme Place × Extent Place)
  | parameter c => c.entries
  | port _ => []

/-- The ports of one direction that a clause declares. -/
def ports (d : Direction) : Clause Place → List (Lexeme Place × Option (Extent Place))
  | parameter _ => []
  | port c => if c.direction = d then c.entries else []

end Clause

/-! ## Headers -/

/-- The list of parameters in front of the ports. -/
structure ParameterList (Place : Type) where
  hash : Mark Place .hash
  opening : Mark Place (.opening .paren)
  clauses : Separated Place (ParameterClause Place)
  closing : Mark Place (.closing .paren)

def ParameterList.tokens (l : ParameterList Place) : List (Lexeme Place) :=
  l.hash.1 :: l.opening.1 :: (l.clauses.tokens ParameterClause.tokens ++ [l.closing.1])

end Header

open Header in
/-- A module whose text is that of a header. -/
structure Header (Place : Type) where
  opener : Mark Place (.keyword .moduleOpen)
  name : Name Place
  parameterList : Option (ParameterList Place)
  opening : Mark Place (.opening .paren)
  portList : Option (Separated Place (PortClause Place))
  closing : Mark Place (.closing .paren)
  semicolon : Mark Place .semicolon
  statements : List (Clause Place × Mark Place .semicolon)
  closer : Mark Place (.keyword .moduleClose)

namespace Header

variable {Place : Type}

/-- What stands between the name of a module and its `endmodule`. -/
def body (h : Header Place) : List (Lexeme Place) :=
  (h.parameterList.map ParameterList.tokens).getD [] ++
    h.opening.1 :: ((h.portList.map (Separated.tokens PortClause.tokens)).getD [] ++
      h.closing.1 :: h.semicolon.1 :: h.statements.flatMap fun s => s.1.tokens ++ [s.2.1])

def tokens (h : Header Place) : List (Lexeme Place) :=
  h.opener.1 :: h.name.1 :: (h.body ++ [h.closer.1])

/-- The clauses of a header, in the order in which they stand. -/
def clauses (h : Header Place) : List (Clause Place) :=
  (h.parameterList.map fun l => l.clauses.items.map Clause.parameter).getD [] ++
    (h.portList.map fun l => l.items.map Clause.port).getD [] ++ h.statements.map Prod.fst

/-- The parameters that a header declares, each with the extent of its value, in order. -/
def parameters (h : Header Place) : List (Lexeme Place × Extent Place) :=
  h.clauses.flatMap Clause.parameters

/-- The ports of one direction that a header declares, each with its range, in order. -/
def ports (h : Header Place) (d : Direction) : List (Lexeme Place × Option (Extent Place)) :=
  h.clauses.flatMap (Clause.ports d)

end Header

end VerilogScaffold
