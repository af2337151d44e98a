import VerilogScaffold.Text.Blank
import VerilogScaffold.Text.Offset
import VerilogScaffold.Token.Kind

/-!
# Segments of source text

Verilog text is a sequence of segments: blanks, comments, compiler directives, lexemes, and
stretches that are malformed. This module cuts a source into its segments.

## Shape of the cut

`Segment.measure` looks at the character a segment starts with and at what follows, and says what
the segment is and how many of the following characters belong to it. `Segment.split` repeats that
to the end of the text. As a segment is described by a number of characters, the cut cannot lose or
repeat any: `flatMap_text_split` states that the segments' texts, joined, are the source.

String literals are single lexemes, so comment marks inside them are no comments. A stretch that
starts no lexeme is malformed and carries its fault; the rest of the source is read all the same.
-/

namespace VerilogScaffold

/-- The ways in which a stretch of text can fail to be a lexeme. -/
inductive LexicalFault
  /-- A string literal that its line does not close. -/
  | unterminatedString
  /-- A backslash with no name after it. -/
  | emptyEscapedName
  /-- A character that starts no lexeme. -/
  | unrecognized (c : Char)
  deriving DecidableEq

/-- What a segment is. -/
inductive SegmentKind
  | blank
  /-- A comment; one between `/*` and the end of the source is not closed. -/
  | comment (closed : Bool)
  | directive
  | lexeme (kind : TokenKind)
  | malformed (fault : LexicalFault)
  deriving DecidableEq

/-- A stretch of source text, with what it is. -/
structure Segment where
  kind : SegmentKind
  text : List Char
  deriving DecidableEq

namespace Segment

/-- How many characters at the start of a text satisfy a test. -/
def run (p : Char → Bool) (cs : List Char) : Nat := (cs.takeWhile p).length

/-! ## Character classes -/

def isWordStart (c : Char) : Bool := c.isAlpha || c == '_'

def isWordChar (c : Char) : Bool := c.isAlphanum || c == '_' || c == '$'

def isGap (c : Char) : Bool := c == ' ' || c == '\t'

def isDecimal (c : Char) : Bool := c.isDigit || c == '_'

/-- The letters that name the base of a number. -/
def isRadix (c : Char) : Bool := c.toLower ∈ ['b', 'o', 'd', 'h']

def isSignMark (c : Char) : Bool := c == 's' || c == 'S'

/-- The characters that make a tick the start of a based number. -/
def isBaseStart (c : Char) : Bool := isRadix c || isSignMark c

/-- The digits of a based number, with the unknown and high-impedance ones. -/
def isBasedDigit (c : Char) : Bool :=
  c.isDigit || c.toLower ∈ ['a', 'b', 'c', 'd', 'e', 'f', 'x', 'z'] || c == '?' || c == '_'

/-- The operators of one character that never join another. -/
def isLoneOperator (c : Char) : Bool :=
  c ∈ ['+', '-', '*', '/', '%', '&', '|', '^', '~', '?', ':', '.', '@']

/-- The characters that an equals sign may follow in an operator. -/
def isComparison (c : Char) : Bool := c == '!' || c == '<' || c == '>'

/-- Whether a text starts with a character that satisfies a test. -/
def startsWith (p : Char → Bool) (cs : List Char) : Bool := cs.head?.any p

/-! ## Comments and directives -/

/-- The length of a block comment after its opening mark, up to and with the first closing mark. -/
def commentEnd? : List Char → Option Nat
  | '*' :: '/' :: _ => some 2
  | _ :: cs => (commentEnd? cs).map (· + 1)
  | [] => none

/-- How much text a compiler directive covers. -/
inductive DirectiveExtent
  /-- The directive's own word. -/
  | word
  /-- The word and the one name after it. -/
  | wordAndName
  /-- The rest of the line, and of the lines that continue it. -/
  | line
  deriving DecidableEq

/-- The directives, by extent. Any other word after a backtick is the use of a text macro. -/
def directives : List (String × DirectiveExtent) :=
  [("else", .word), ("endif", .word), ("resetall", .word), ("celldefine", .word),
    ("endcelldefine", .word), ("nounconnected_drive", .word), ("undefineall", .word),
    ("end_keywords", .word),
    ("ifdef", .wordAndName), ("ifndef", .wordAndName), ("elsif", .wordAndName),
    ("undef", .wordAndName),
    ("define", .line), ("timescale", .line), ("include", .line), ("default_nettype", .line),
    ("line", .line), ("pragma", .line), ("unconnected_drive", .line), ("begin_keywords", .line)]

/-- The length of what remains of a line directive. A newline ends it unless the last character
before that newline that is not blank is a backslash, wherever it stands: `continued` says so. The
newline that ends the directive is not part of it. -/
def lineEnd (continued : Bool) : List Char → Nat
  | [] => 0
  | c :: cs =>
    if c = '\n' then
      if continued then lineEnd continued cs + 1 else 0
    else if Text.isAsciiBlank c then lineEnd continued cs + 1
    else lineEnd (c == '\\') cs + 1

/-- The length of what a directive covers after its word. -/
def DirectiveExtent.measure (cs : List Char) : DirectiveExtent → Nat
  | .word => 0
  | .wordAndName => run isGap cs + run isWordChar (cs.drop (run isGap cs))
  | .line => lineEnd false cs

/-- What a backtick starts: a directive, or the use of a macro. -/
def measureBacktick (cs : List Char) : SegmentKind × Nat :=
  let word := run isWordChar cs
  match directives.lookup (String.ofList (cs.take word)) with
  | some extent => (.directive, word + extent.measure (cs.drop word))
  | none => (.lexeme .macroUsage, word)

/-! ## Lexemes -/

/-- The length of a string literal after its opening quote, and whether a quote closes it. A
backslash takes the next character with it, even a newline; otherwise the literal ends with its
line. -/
def stringEnd : List Char → Nat × Bool
  | [] => (0, false)
  | '\\' :: _ :: cs => let (n, closed) := stringEnd cs; (n + 2, closed)
  | c :: cs =>
    if c = '\n' then (0, false)
    else if c = '"' then (1, true)
    else let (n, closed) := stringEnd cs; (n + 1, closed)

/-- The length of a based number after its tick: a sign mark, the base, and the digits, which may
stand apart. -/
def basedLength (cs : List Char) : Nat :=
  let sign := if startsWith isSignMark cs then 1 else 0
  match cs.drop sign with
  | c :: rest =>
    if isRadix c then sign + 1 + run isGap rest + run isBasedDigit (rest.drop (run isGap rest))
    else sign
  | [] => sign

/-- The length of a fraction, if a digit follows the point. -/
def fractionLength : List Char → Nat
  | '.' :: cs => if startsWith Char.isDigit cs then 1 + run isDecimal cs else 0
  | _ => 0

/-- The length of an exponent; its letter belongs to the number even when no digit follows. -/
def exponentLength : List Char → Nat
  | c :: cs =>
    if c == 'e' || c == 'E' then
      let sign := if startsWith (fun d => d == '+' || d == '-') cs then 1 else 0
      1 + sign + run isDecimal (cs.drop sign)
    else 0
  | [] => 0

/-- The length of a number after its first digit. Digits may be the size of a based number, even
with a gap before the tick; otherwise a fraction and an exponent may follow. -/
def numberLength (cs : List Char) : Nat :=
  let digits := run isDecimal cs
  let rest := cs.drop digits
  let gap := run isGap rest
  match rest.drop gap with
  | '\'' :: base :: value =>
    if isBaseStart base then digits + gap + 1 + basedLength (base :: value)
    else digits + fractionLength rest + exponentLength (rest.drop (fractionLength rest))
  | _ => digits + fractionLength rest + exponentLength (rest.drop (fractionLength rest))

/-- The kind of a word. -/
def wordKind (word : List Char) : TokenKind :=
  match Keyword.ofSpelling? (String.ofList word) with
  | some k => .keyword k
  | none => .identifier

/-- What a backslash starts: a name that ends at the next blank. -/
def measureEscaped (cs : List Char) : SegmentKind × Nat :=
  match run (fun c => !Text.isAsciiBlank c) cs with
  | 0 => (.malformed .emptyEscapedName, 0)
  | n => (.lexeme .escapedIdentifier, n)

/-- What a quote starts. -/
def measureString (cs : List Char) : SegmentKind × Nat :=
  let (n, closed) := stringEnd cs
  (if closed then .lexeme .stringLiteral else .malformed .unterminatedString, n)

/-- The kind of a mark of one character that never joins another. -/
def loneMark? (c : Char) : Option TokenKind :=
  match c with
  | '(' => some (.opening .paren)
  | ')' => some (.closing .paren)
  | '[' => some (.opening .square)
  | ']' => some (.closing .square)
  | '\x7b' => some (.opening .brace)
  | '\x7d' => some (.closing .brace)
  | ',' => some .comma
  | ';' => some .semicolon
  | '#' => some .hash
  | _ => if isLoneOperator c then some .operator else none

/-- What a character starts that starts no word, number or string. -/
def measureMark (c : Char) (cs : List Char) : SegmentKind × Nat :=
  match loneMark? c with
  | some kind => (.lexeme kind, 0)
  | none =>
    if c = '=' then (.lexeme (if startsWith (· == '=') cs then .operator else .equals),
      run (· == '=') cs)
    else if isComparison c then (.lexeme .operator, run (· == '=') cs)
    else (.malformed (.unrecognized c), 0)

/-- What a segment that starts with `c` is, and how many of the characters after it belong to it. -/
def measure (c : Char) (cs : List Char) : SegmentKind × Nat :=
  if Text.isAsciiBlank c then (.blank, run Text.isAsciiBlank cs)
  else if c = '/' ∧ startsWith (· == '/') cs then (.comment true, run (· != '\n') cs)
  else if c = '/' ∧ startsWith (· == '*') cs then
    match commentEnd? (cs.drop 1) with
    | some n => (.comment true, 1 + n)
    | none => (.comment false, cs.length)
  else if c = '\x60' then measureBacktick cs
  else if isWordStart c then (.lexeme (wordKind (c :: cs.takeWhile isWordChar)), run isWordChar cs)
  else if c = '\\' then measureEscaped cs
  else if c = '$' then (.lexeme .systemIdentifier, run isWordChar cs)
  else if c.isDigit then (.lexeme .number, numberLength cs)
  else if c = '\'' ∧ startsWith isBaseStart cs then (.lexeme .number, basedLength cs)
  else if c = '"' then measureString cs
  else measureMark c cs

/-! ## The cut -/

/-- Cuts a text into its segments. -/
def split : List Char → List Segment
  | [] => []
  | c :: cs =>
    ⟨(measure c cs).1, c :: cs.take (measure c cs).2⟩ :: split (cs.drop (measure c cs).2)
termination_by cs => cs.length
decreasing_by simp only [List.length_cons, List.length_drop]; omega

/-- The segments of a text, joined, are the text. -/
theorem flatMap_text_split (cs : List Char) : (split cs).flatMap Segment.text = cs := by
  fun_induction split cs with
  | case1 => rfl
  | case2 c cs ih => simp [ih]

/-- No segment is empty. -/
theorem text_ne_nil_of_mem_split {cs : List Char} {s : Segment} (h : s ∈ split cs) :
    s.text ≠ [] := by
  fun_induction split cs with
  | case1 => simp at h
  | case2 c cs ih =>
    rcases List.mem_cons.1 h with rfl | h
    · simp
    · exact ih h

/-- The number of bytes a segment takes in the source. -/
def byteLength (s : Segment) : Nat := Text.byteLength s.text

end Segment

/-- The kind of the token that a segment of some kind makes, if it makes one. -/
def SegmentKind.tokenKind? : SegmentKind → Option TokenKind
  | .lexeme kind => some kind
  | .malformed _ => some .error
  | .blank | .comment _ | .directive => none

end VerilogScaffold
