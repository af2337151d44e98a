import VerilogScaffold.Token.Basic

/-!
# Reading tokens by byte

`Lexing.ofSource` cuts a list of characters, and so can neither read past its end nor cut a
character in two. Extraction runs `Lexing.ofSource?`, which moves an index over the bytes of the
source. Each step of it that could go wrong answers `none` when it does: a slice that ends before it
starts or past the last byte, a malformed stretch that is not one whole character, and a loop that
goes round without moving on.

## Shape of the lexer

A byte is tested like the character with its number, and past the last byte stands a zero. Tests for
a letter, a digit or a mark fail on the bytes of a character that is not ASCII; tests for the end of
something succeed on all of them. A reader takes the index it starts at and returns the index it
stopped at.
-/

namespace VerilogScaffold

/-- The bytes to read. -/
structure ByteLexer where
  bytes : Array UInt8

namespace ByteLexer

open Segment

variable (s : ByteLexer)

/-- The character with the number of the byte at an index. -/
def char (i : Nat) : Char := .ofUInt8 (s.bytes.getD i 0)

/-- The bytes from one index up to another. -/
def slice? (i j : Nat) : Option ByteArray :=
  if i ≤ j ∧ j ≤ s.bytes.size then some ⟨s.bytes.extract i j⟩ else none

/-- Whether a loop that was at `i` and is at `j` has moved on, and will not do so for ever. -/
def Advances (i j : Nat) : Prop := i < s.bytes.size ∧ i < j

instance (i j : Nat) : Decidable (s.Advances i j) := inferInstanceAs (Decidable (_ ∧ _))

/-- The index after the bytes from `i` on that satisfy a test. -/
def eatWhile (p : Char → Bool) (i : Nat) : Nat :=
  if i < s.bytes.size ∧ p (s.char i) then eatWhile p (i + 1) else i
termination_by s.bytes.size - i

/-! ## Comments and directives -/

/-- Where a block comment ends of which the bytes from `i` on are left, and whether it is closed. -/
def commentFrom (i : Nat) : Bool × Nat :=
  if i < s.bytes.size then
    if s.char i = '*' ∧ s.char (i + 1) = '/' then (true, i + 2) else commentFrom (i + 1)
  else (false, i)
termination_by s.bytes.size - i

/-- The word after the backtick at an index. -/
def backtickWord? (i : Nat) : Option ByteArray :=
  let start := min (i + 1) s.bytes.size
  s.slice? start (s.eatWhile isWordChar start)

/-- The index after the last byte before `i` that is not blank. -/
def trimEnd (i : Nat) : Nat :=
  if 0 < i ∧ Text.isAsciiBlank (s.char (i - 1)) then trimEnd (i - 1) else i
termination_by i

/-- Whether the last byte before `i` that is not blank is a backslash. -/
def continues (i : Nat) : Bool :=
  decide (0 < s.trimEnd i) && s.char (s.trimEnd i - 1) == '\\'

/-- Where a line directive ends of which the bytes from `i` on are left. -/
def lineFrom? (i : Nat) : Option Nat :=
  let j := s.eatWhile (· != '\n') i
  if j ≤ s.bytes.size then
    if s.continues j ∧ j < s.bytes.size then
      if s.Advances i (j + 1) then lineFrom? (j + 1) else none
    else some j
  else none
termination_by s.bytes.size - i
decreasing_by grind [Advances]

/-- Where a directive ends whose word ends at `i`. -/
def directiveFrom? (i : Nat) : DirectiveExtent → Option Nat
  | .word => some i
  | .wordAndName => some (s.eatWhile isWordChar (s.eatWhile isGap i))
  | .line => s.lineFrom? i

/-- Reads what the backtick at an index starts. -/
def backtick? (i : Nat) : Option (SegmentKind × Nat) := do
  let word ← s.backtickWord? i
  match (String.fromUTF8? word).bind (List.lookup · directives) with
  | some extent => return (.directive, ← s.directiveFrom? (i + 1 + word.size) extent)
  | none => return (.lexeme .macroUsage, s.eatWhile isWordChar (i + 1))

/-! ## Lexemes -/

/-- Reads the word that starts at an index. -/
def word? (i : Nat) : Option (SegmentKind × Nat) := do
  let j := s.eatWhile isWordChar i
  let text := (String.fromUTF8? (← s.slice? i j)).getD ""
  return (.lexeme (wordKind text.toList), j)

/-- Reads the escaped name that starts at an index. -/
def escaped (i : Nat) : SegmentKind × Nat :=
  let j := s.eatWhile (!Text.isAsciiBlank ·) (i + 1)
  (if j = i + 1 then .malformed .emptyEscapedName else .lexeme .escapedIdentifier, j)

/-- Where a based number ends whose tick stands before `i`. -/
def basedFrom (i : Nat) : Nat :=
  let j := if isSignMark (s.char i) then i + 1 else i
  if isRadix (s.char j) then s.eatWhile isBasedDigit (s.eatWhile isGap (j + 1)) else j

/-- Where a fraction ends, if one starts at `i`. -/
def fractionFrom (i : Nat) : Nat :=
  if s.char i = '.' ∧ (s.char (i + 1)).isDigit then s.eatWhile isDecimal (i + 1) else i

/-- Where an exponent ends, if one starts at `i`. -/
def exponentFrom (i : Nat) : Nat :=
  if s.char i == 'e' || s.char i == 'E' then
    s.eatWhile isDecimal
      (if s.char (i + 1) == '+' || s.char (i + 1) == '-' then i + 2 else i + 1)
  else i

/-- Where a number ends whose digits start at `i`. -/
def numberFrom (i : Nat) : Nat :=
  let digits := s.eatWhile isDecimal i
  let tick := s.eatWhile isGap digits
  if s.char tick = '\'' ∧ isBaseStart (s.char (tick + 1)) then s.basedFrom (tick + 1)
  else s.exponentFrom (s.fractionFrom digits)

/-- Where a string literal ends of which the bytes from `i` on are left, and whether a quote closes
it. -/
def stringFrom (i : Nat) : Bool × Nat :=
  if i < s.bytes.size then
    if s.char i = '\n' then (false, i)
    else if s.char i = '\\' then stringFrom (min (i + 2) s.bytes.size)
    else if s.char i = '"' then (true, i + 1)
    else stringFrom (i + 1)
  else (false, i)
termination_by s.bytes.size - i

/-- Whether a byte continues a character that another byte starts. -/
def isContinuation (c : Char) : Bool := c.toNat &&& 0xC0 == 0x80

/-- Reads the character at an index, which starts no lexeme. -/
def unrecognized? (i : Nat) : Option (SegmentKind × Nat) := do
  let j := s.eatWhile isContinuation (i + 1)
  let text ← String.fromUTF8? (← s.slice? i j)
  match text.toList with
  | [c] => some (.malformed (.unrecognized c), j)
  | _ => none

/-- Reads what starts at an index and is no word, number or string. -/
def mark? (i : Nat) : Option (SegmentKind × Nat) :=
  match loneMark? (s.char i) with
  | some kind => some (.lexeme kind, i + 1)
  | none =>
    if s.char i = '=' then
      some (.lexeme (if s.char (i + 1) = '=' then .operator else .equals),
        s.eatWhile (· == '=') (i + 1))
    else if isComparison (s.char i) then some (.lexeme .operator, s.eatWhile (· == '=') (i + 1))
    else s.unrecognized? i

/-! ## Sources -/

/-- Reads the segment that starts at an index. -/
def segment? (i : Nat) : Option (SegmentKind × Nat) :=
  let c := s.char i
  if Text.isAsciiBlank c then some (.blank, s.eatWhile Text.isAsciiBlank i)
  else if c = '/' ∧ s.char (i + 1) = '/' then some (.comment true, s.eatWhile (· != '\n') i)
  else if c = '/' ∧ s.char (i + 1) = '*' then
    some (.comment (s.commentFrom (i + 2)).1, (s.commentFrom (i + 2)).2)
  else if c = '\x60' then s.backtick? i
  else if isWordStart c then s.word? i
  else if c = '\\' then some (s.escaped i)
  else if c = '$' then some (.lexeme .systemIdentifier, s.eatWhile isWordChar (i + 1))
  else if c.isDigit then some (.lexeme .number, s.numberFrom i)
  else if c = '\'' ∧ isBaseStart (s.char (i + 1)) then some (.lexeme .number, s.basedFrom (i + 1))
  else if c = '"' then
    some (if (s.stringFrom (i + 1)).1 then .lexeme .stringLiteral
      else .malformed .unterminatedString, (s.stringFrom (i + 1)).2)
  else s.mark? i

/-- Reads the bytes from an index on into tokens. -/
def lexFrom? (i : Nat) : Option Lexing :=
  if i < s.bytes.size then do
    let (kind, j) ← s.segment? i
    if s.Advances i j then
      let later ← lexFrom? j
      return ⟨(kind.tokenKind?.map (⟨·, .ofOffsets i j⟩)).toList ++ later.tokens,
        (kind.diagnostic? (.ofOffsets i j)).toList ++ later.diagnostics⟩
    else none
  else some ⟨[⟨.eof, .ofOffsets i i⟩], []⟩
termination_by s.bytes.size - i
decreasing_by grind [Advances]

end ByteLexer

/-- Reads a source into tokens by byte. The reading fails where a step of it goes wrong. -/
def Lexing.ofSource? (source : String) : Option Lexing :=
  ByteLexer.lexFrom? ⟨source.toUTF8.data⟩ 0

end VerilogScaffold
