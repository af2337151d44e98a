/-!
# Blank characters

Two classes of blanks are in use. Verilog text is separated by ASCII whitespace; templates and
generated text are laid out by the Unicode property `White_Space`, of twenty-five characters.
-/

namespace VerilogScaffold.Text

/-- A property of each character of a text is decided along the text. The priority keeps this ahead
of a search through all characters. -/
instance (priority := high) decidableForallMemChar {p : Char → Prop} [DecidablePred p]
    (cs : List Char) : Decidable (∀ c ∈ cs, p c) :=
  List.decidableBAll p cs

/-- The blanks that separate tokens: space, tab, newline, form feed and carriage return. -/
def isAsciiBlank (c : Char) : Bool :=
  c == ' ' || c == '\t' || c == '\n' || c == '\x0c' || c == '\r'

/-- The inclusive ranges of code points that have the property `White_Space`. -/
def blankRanges : List (Nat × Nat) :=
  [(0x09, 0x0D), (0x20, 0x20), (0x85, 0x85), (0xA0, 0xA0), (0x1680, 0x1680), (0x2000, 0x200A),
    (0x2028, 0x2029), (0x202F, 0x202F), (0x205F, 0x205F), (0x3000, 0x3000)]

/-- Whether a character has the Unicode property `White_Space`. -/
def isBlank (c : Char) : Bool :=
  blankRanges.any fun r => decide (r.1 ≤ c.toNat) && decide (c.toNat ≤ r.2)

end VerilogScaffold.Text
