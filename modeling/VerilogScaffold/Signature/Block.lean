import VerilogScaffold.Token.Basic

/-!
# Subprogram blocks

Tasks and functions declare their arguments with the same words as a module declares its ports.
Their tokens are therefore taken out of the source before its signature is read. A block runs from
its keyword to the first matching end keyword; one that is never closed stays, and is reported.
-/

namespace VerilogScaffold

/-- A source's tokens without its subprogram blocks, and the keywords of the blocks that are never
closed. Those keywords are among the tokens. -/
structure Stripped (Place : Type) where
  tokens : List (Lexeme Place)
  unclosed : List (Block × Lexeme Place)

namespace Stripped

variable {Place : Type}

/-- Keeps one more token in front. -/
def keep (t : Lexeme Place) (s : Stripped Place) :
    Stripped Place := { s with tokens := t :: s.tokens }

/-- Keeps the keyword of an unclosed block in front, and reports it. -/
def report (b : Block) (t : Lexeme Place) (s : Stripped Place) : Stripped Place :=
  ⟨t :: s.tokens, (b, t) :: s.unclosed⟩

/-- Whether the keyword that closes a block is among some tokens. -/
def closes (b : Block) (ts : List (Lexeme Place)) : Bool :=
  ts.any (·.kind == .keyword (.blockClose b))

/-- Takes blocks out of a list of tokens that starts inside the given block, or outside all. -/
def ofTokensFrom : Option Block → List (Lexeme Place) → Stripped Place
  | _, [] => ⟨[], []⟩
  | some b, t :: ts => ofTokensFrom (if t.kind = .keyword (.blockClose b) then none else some b) ts
  | none, t :: ts =>
    match t.kind with
    | .keyword (.blockOpen b) =>
      if closes b ts then ofTokensFrom (some b) ts else report b t (ofTokensFrom none ts)
    | _ => keep t (ofTokensFrom none ts)

/-- Takes the subprogram blocks out of a list of tokens. -/
def ofTokens (ts : List (Lexeme Place)) : Stripped Place := ofTokensFrom none ts

/-- Takes the subprogram blocks out of the tokens from an index on. Extraction leaves the tokens
where they are and moves the index; this fails where it asks for a token, or cuts the tokens, past
their end. -/
def ofTokensAt? (ts : Array (Lexeme Place)) (i : Nat) : Option (Stripped Place) :=
  if i < ts.size then do
    let t ← ts[i]?
    match t.kind with
    | .keyword (.blockOpen b) =>
      match (← Lexeme.from? ts i).findIdx? (·.kind == .keyword (.blockClose b)) with
      | some length => ofTokensAt? ts (i + (length + 1))
      | none => return report b t (← ofTokensAt? ts (i + 1))
    | _ => return keep t (← ofTokensAt? ts (i + 1))
  else some ⟨[], []⟩
termination_by ts.size - i

/-- Takes the subprogram blocks out of an array of tokens. -/
def ofTokens? (ts : Array (Lexeme Place)) : Option (Stripped Place) := ofTokensAt? ts 0

/-- The diagnostics for the blocks that are never closed. -/
def diagnostics (s : Stripped Span) : List Diagnostic :=
  s.unclosed.map fun (b, t) =>
    (Diagnostic.warning 304 ("`" ++ b.keyword ++ "` block is never closed") t.span).withNote
      "declarations inside it are treated as module-level declarations"

end Stripped

end VerilogScaffold
