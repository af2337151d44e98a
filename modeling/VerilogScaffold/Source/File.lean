import VerilogScaffold.Path
import VerilogScaffold.Source.Span

/-!
# Source files

A source file is a path and a text. Reports on it speak of lines and columns, both counted from one;
columns count bytes. Every offset has a line and a column: one that lies past the end belongs to the
last line, and one inside a character keeps its distance from the start of its line.
-/

namespace VerilogScaffold

/-- A place in a text, as people name it. -/
structure Position where
  line : Nat
  column : Nat
  deriving DecidableEq

/-- The text of a source and where it was read from. -/
structure SourceFile where
  path : Path
  content : String

/-- Where a span of a file starts, and where its last byte stands. -/
structure Location where
  path : Path
  first : Position
  last : Position

/-- A location as a report names it: its file and its start. -/
def Location.text (l : Location) : String :=
  l.path.text ++ ":" ++ toString l.first.line ++ ":" ++ toString l.first.column

namespace SourceFile

/-- The offsets after each newline of a text that stands at byte `start`. -/
def lineStartsFrom (start : Nat) : List Char → List Nat
  | [] => []
  | c :: cs =>
    let next := start + c.utf8Size
    if c = '\n' then next :: lineStartsFrom next cs else lineStartsFrom next cs

/-- The offsets at which the lines of a text start, in order. -/
def lineStarts (content : String) : List Nat := 0 :: lineStartsFrom 0 content.toList

/-- The position of a byte offset: its line is the last that starts at or before it. -/
def position (f : SourceFile) (offset : Nat) : Position :=
  let before := (lineStarts f.content).takeWhile (· ≤ offset)
  ⟨before.length, offset - before.getLastD 0 + 1⟩

/-- Where a value stands in an increasing index, or where it would be put in. -/
inductive Slot
  | entry (i : Nat)
  | gap (i : Nat)

/-- Searches an increasing index for a value by halving the part of it, from `low` up to `high`,
that the value may stand in. The search fails where it asks for an entry that is not there. -/
def search? (index : Array Nat) (value low high : Nat) : Option Slot :=
  if low < high then
    let middle := low + (high - low) / 2
    match index[middle]? with
    | none => none
    | some entry =>
      if entry = value then some (.entry middle)
      else if entry < value then search? index value (middle + 1) high
      else search? index value low middle
  else some (.gap low)
termination_by high - low

/-- The position of a byte offset, searched for in the index of line starts: the line is the one
that starts at the offset, or else the one before the place where the offset would be put in. The
lookup fails where there is no such line, or where the line starts after the offset. -/
def position? (f : SourceFile) (offset : Nat) : Option Position := do
  let starts := (lineStarts f.content).toArray
  let line ← match ← search? starts offset 0 starts.size with
    | .entry line => some line
    | .gap next => if 1 ≤ next then some (next - 1) else none
  let start ← starts[line]?
  if start ≤ offset then some ⟨line + 1, offset - start + 1⟩ else none

/-- The location of a span. An empty span, or one that stops before it starts, ends where it
starts. -/
def locate (f : SourceFile) (s : Span) : Location :=
  ⟨f.path, f.position s.start.toNat, f.position (max (s.stop.toNat - 1) s.start.toNat)⟩

/-- The location of a span, with both its ends looked up in the index of line starts. -/
def locate? (f : SourceFile) (s : Span) : Option Location := do
  let first ← f.position? s.start.toNat
  let last ← f.position? (max (s.stop.toNat - 1) s.start.toNat)
  return ⟨f.path, first, last⟩

/-- A line without the carriage returns at its end. -/
def trimmedLine (line : List Char) : String :=
  String.ofList (line.reverse.dropWhile (· == '\r')).reverse

/-- The text of the line that a byte offset lies on, without the carriage returns at its end. -/
def lineText (f : SourceFile) (offset : Nat) : String :=
  let before := Text.charsBefore offset f.content.toList
  let after := f.content.toList.drop before.length
  let line := (before.reverse.takeWhile (· != '\n')).reverse ++ after.takeWhile (· != '\n')
  trimmedLine line

/-- The text of the line that a byte offset lies on, cut out of the text: from the character
boundary at or before the offset, the line reaches back and forth to the next newline or the end of
the text. The cut fails where it would split a character or leave the text. -/
def lineText? (f : SourceFile) (offset : Nat) : Option String := do
  let boundary := Text.byteLength (Text.charsBefore offset f.content.toList)
  let before ← Text.slice? 0 boundary f.content.toList
  let after ← Text.slice? boundary (Text.byteLength f.content.toList) f.content.toList
  let start := boundary - Text.byteLength (before.reverse.takeWhile (· != '\n'))
  let stop := boundary + Text.byteLength (after.takeWhile (· != '\n'))
  let line ← Text.slice? start stop f.content.toList
  return trimmedLine line

/-- The name of the file without its extension, or nothing if its path names no file. -/
def baseName (f : SourceFile) : String := f.path.fileStem?.getD ""

end SourceFile

end VerilogScaffold
