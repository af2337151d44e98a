import VerilogScaffold.Diagnostic.Basic
import VerilogScaffold.Token.Segment

/-!
# Tokens of a source

A token is a kind and a place; its text stays in the source. The tokens and the lexical diagnostics
of a source are both read off its segments, each at the offset at which the segment stands, so that
an error token and its diagnostic cannot part ways.

Readers of signatures look at kinds alone. They are therefore written for tokens placed by any type
of place, and `Token` fixes that type to spans.
-/

namespace VerilogScaffold

/-- A token whose place is of any type. -/
structure Lexeme (Place : Type) where
  kind : TokenKind
  place : Place
  deriving DecidableEq

/-- A token of a source. -/
abbrev Token := Lexeme Span

/-- The place of a token in its source. -/
abbrev Lexeme.span (t : Token) : Span := t.place

/-- The tokens from an index on. The cut fails behind the last token. -/
def Lexeme.from? {Place : Type} (ts : Array (Lexeme Place)) (i : Nat) :
    Option (List (Lexeme Place)) :=
  if i ≤ ts.size then some (ts.toList.drop i) else none

/-- Puts a token at the place a function gives for its own. -/
def Lexeme.map {P Q : Type} (f : P → Q) (t : Lexeme P) : Lexeme Q := ⟨t.kind, f t.place⟩

/-- The diagnostic that a segment of some kind gives rise to, at its span. -/
def SegmentKind.diagnostic? (span : Span) : SegmentKind → Option Diagnostic
  | .comment false => some (.error 101 "unterminated block comment" span)
  | .malformed .unterminatedString => some (.error 102 "unterminated string literal" span)
  | .malformed .emptyEscapedName => some (.error 103 "empty escaped identifier" span)
  | .malformed (.unrecognized c) =>
    some (.error 103 ("unrecognized character '" ++ c.toString ++ "'") span)
  | .blank | .comment true | .directive | .lexeme _ => none

namespace Segment

/-- The span of a segment that stands at byte `start`. -/
def spanAt (start : Nat) (s : Segment) : Span := .ofOffsets start (start + s.byteLength)

/-- The tokens of the segments from byte `start` on, and the end of the source after them. -/
def tokensFrom (start : Nat) : List Segment → List Token
  | [] => [⟨.eof, .ofOffsets start start⟩]
  | s :: rest =>
    let later := tokensFrom (start + s.byteLength) rest
    match s.kind.tokenKind? with
    | some kind => ⟨kind, s.spanAt start⟩ :: later
    | none => later

/-- The diagnostics of the segments from byte `start` on. -/
def diagnosticsFrom (start : Nat) : List Segment → List Diagnostic
  | [] => []
  | s :: rest =>
    (s.kind.diagnostic? (s.spanAt start)).toList ++ diagnosticsFrom (start + s.byteLength) rest

end Segment

/-- The tokens and the lexical diagnostics of a source. -/
structure Lexing where
  tokens : List Token
  diagnostics : List Diagnostic

/-- Reads a source into tokens. The last token is always the end of the source. -/
def Lexing.ofSource (source : String) : Lexing :=
  let segments := Segment.split source.toList
  ⟨Segment.tokensFrom 0 segments, Segment.diagnosticsFrom 0 segments⟩

end VerilogScaffold
