import VerilogScaffold.Toml.Quoted
import VerilogScaffold.Toml.Scalar
import VerilogScaffold.Toml.Value

/-!
# TOML documents

A document is a list of statements, one a line: headers, which open tables, and keys with values,
which go into the table opened last. `Statement.read?` reads the lines and `ofString?` builds the
document. Any fault makes the whole text no document.

Values nest at most `depthLimit` deep, which is also what the recursion over values counts down.
Lists of values are bounded by the length of the text they are read from.
-/

namespace VerilogScaffold.Toml

/-- How deep values may nest, and how long dotted keys may be. -/
def depthLimit : Nat := 80

/-! ## Blanks and keys -/

def isGap (c : Char) : Bool := c == ' ' || c == '\t'

/-- Drops the spaces and tabs that a text starts with. -/
def skipGap (cs : List Char) : List Char := cs.dropWhile isGap

/-- Drops the comment that a text starts with, if it does. -/
def skipComment : List Char → List Char
  | '#' :: rest => rest.dropWhile Quoted.isPlain
  | cs => cs

/-- Drops the newline that a text starts with. -/
def newline? : List Char → Option (List Char)
  | '\n' :: rest => some rest
  | '\r' :: '\n' :: rest => some rest
  | _ => none

/-- Drops what may stand after a statement, up to and with the end of its line. -/
def lineEnd? (cs : List Char) : Option (List Char) :=
  match skipComment (skipGap cs) with
  | [] => some []
  | rest => newline? rest

/-- Drops spaces, tabs, newlines and comments. -/
def skipLines (bound : Nat) (cs : List Char) : List Char :=
  match bound with
  | 0 => cs
  | n + 1 =>
    match newline? (skipComment (skipGap cs)) with
    | some rest => skipLines n rest
    | none => skipGap cs

def isBareKeyChar (c : Char) : Bool := c.isAlphanum || c == '_' || c == '-'

/-- Reads a key without dots. -/
def simpleKey? (cs : List Char) : Option (String × List Char) :=
  match cs with
  | '"' :: rest => (Quoted.basic? rest).map fun (key, after) => (String.ofList key, after)
  | '\'' :: rest => (Quoted.literal? rest).map fun (key, after) => (String.ofList key, after)
  | _ =>
    match cs.takeWhile isBareKeyChar with
    | [] => none
    | key => some (String.ofList key, cs.dropWhile isBareKeyChar)

/-- Reads the parts of a dotted key, with the gaps around them. -/
def keyParts? (bound : Nat) (cs : List Char) : Option (List String × List Char) :=
  match bound with
  | 0 => none
  | n + 1 => do
    let (part, rest) ← simpleKey? (skipGap cs)
    match skipGap rest with
    | '.' :: more => do
      let (parts, after) ← keyParts? n more
      return (part :: parts, after)
    | after => return ([part], after)

/-- A key that may be dotted: the path to its table, and its last part. -/
structure Key where
  path : List String
  last : String

/-- Reads a key. -/
def key? (cs : List Char) : Option (Key × List Char) := do
  let (parts, rest) ← keyParts? cs.length cs
  let last ← parts.getLast?
  if parts.length < depthLimit then some (⟨parts.dropLast, last⟩, rest) else none

/-! ## Values -/

/-- A reader of a value of some type at the start of a text. -/
abbrev Reader (α : Type) := List Char → Option (α × List Char)

/-- Reads the items of an array after its bracket. A comma may follow the last item. -/
def items? (item? : Reader Value) (bound : Nat) (cs : List Char) :
    Option (List Value × List Char) :=
  match bound with
  | 0 => none
  | n + 1 =>
    match skipLines cs.length cs with
    | ']' :: rest => some ([], rest)
    | start => do
      let (item, rest) ← item? start
      match skipLines rest.length rest with
      | ',' :: more => do
        let (items, after) ← items? item? n more
        return (item :: items, after)
      | ']' :: after => return ([item], after)
      | _ => none

/-- Reads a key and its value. -/
def keyValue? (value? : Reader Value) (cs : List Char) : Option ((Key × Value) × List Char) := do
  let (key, rest) ← key? cs
  match rest with
  | '=' :: rest => do
    let (value, rest) ← value? (skipGap rest)
    return ((key, value), rest)
  | _ => none

/-- Reads the entries of a table in braces, of which there must be one. -/
def braceEntries? (value? : Reader Value) (bound : Nat) (cs : List Char) :
    Option (List (Key × Value) × List Char) :=
  match bound with
  | 0 => none
  | n + 1 => do
    let (entry, rest) ← keyValue? value? cs
    match skipGap rest with
    | ',' :: more => do
      let (entries, after) ← braceEntries? value? n more
      return (entry :: entries, after)
    | '\x7d' :: after => return ([entry], after)
    | _ => none

/-- The table in braces of some entries. -/
def braceTable? (entries : List (Key × Value)) : Option Value := do
  let entries ← entries.foldlM (fun es (key, value) =>
    insert? key.path key.last value ⟨.header, es⟩) []
  return .table .braces entries

/-- Reads a value that nests at most `depth` deep. -/
def value? (depth : Nat) (cs : List Char) : Option (Value × List Char) :=
  match cs with
  | '"' :: _ | '\'' :: _ => (Quoted.read? cs).map fun (s, rest) => (.text s, rest)
  | '[' :: rest =>
    match depth with
    | 0 => none
    | d + 1 => (items? (value? d) rest.length rest).map fun (items, after) => (.array items, after)
  | '\x7b' :: rest =>
    match depth with
    | 0 => none
    | d + 1 =>
      match skipGap rest with
      | '\x7d' :: after => some (.table .braces [], after)
      | start => do
        let (entries, after) ← braceEntries? (value? d) start.length start
        return (← braceTable? entries, after)
  | _ => (Scalar.split? cs).map fun rest => (.other, rest)

/-! ## Statements -/

/-- A line of a document. -/
inductive Statement
  /-- A header in brackets. -/
  | table (key : Key)
  /-- A header in double brackets. -/
  | element (key : Key)
  | entry (key : Key) (value : Value)

/-- Reads one statement and the end of its line. -/
def Statement.read? (cs : List Char) : Option (Statement × List Char) :=
  match cs with
  | '[' :: '[' :: rest => do
    let (key, rest) ← key? rest
    match rest with
    | ']' :: ']' :: rest => return (.element key, ← lineEnd? rest)
    | _ => none
  | '[' :: rest => do
    let (key, rest) ← key? rest
    match rest with
    | ']' :: rest => return (.table key, ← lineEnd? rest)
    | _ => none
  | _ => do
    let ((key, value), rest) ← keyValue? (value? (depthLimit - 1)) cs
    return (.entry key value, ← lineEnd? rest)

/-- Reads the statements of a text. -/
def statements? (bound : Nat) (cs : List Char) : Option (List Statement) :=
  match skipLines cs.length cs with
  | [] => some []
  | '#' :: rest => if rest.dropWhile Quoted.isPlain = [] then some [] else none
  | start =>
    match bound with
    | 0 => none
    | n + 1 => do
      let (statement, rest) ← Statement.read? start
      return statement :: (← statements? n rest)

/-! ## Building the document -/

/-- A document while it is read: the tables closed so far, and the one that is open with the header
that opened it. The document's own table is open first. -/
structure Building where
  closed : Entries
  header : Option Statement
  entries : Entries

/-- Puts the open table in its place. -/
def Building.close? (b : Building) : Option Entries :=
  match b.header with
  | some (.table key) =>
    update? false key.path (fun t =>
      match t.entries.lookup key.last with
      | none => some (t.entries ++ [(key.last, .table .header b.entries)])
      | some _ => none) ⟨.header, b.closed⟩
  | some (.element key) =>
    update? false key.path (fun t =>
      match t.entries.lookup key.last with
      | none => some (t.entries ++ [(key.last, .tables [b.entries])])
      | some (.tables elements) => some (put key.last (.tables (elements ++ [b.entries])) t.entries)
      | some _ => none) ⟨.header, b.closed⟩
  | _ => some b.entries

/-- The entries that a table already has when its header comes: those of the tables inside it whose
headers came first. A table that had a header or was opened by dotted keys may not get one. -/
def adopted? (t : Table) (last : String) : Option Entries :=
  match t.entries.lookup last with
  | none => some []
  | some (.table .implied es) => some es
  | some _ => none

/-- The table that a path leads to, or an empty one. -/
def tableAt? : List String → Table → Option Table
  | [], t => some t
  | key :: rest, t =>
    match t.entries.lookup key with
    | none => some ⟨.implied, []⟩
    | some (.table .braces _) => none
    | some (.table origin es) => tableAt? rest ⟨origin, es⟩
    | some (.tables elements) => do tableAt? rest ⟨.header, ← elements.getLast?⟩
    | some _ => none

/-- Takes in one statement. -/
def Building.step? (b : Building) (s : Statement) : Option Building :=
  match s with
  | .entry key value => do
    return { b with entries := ← insert? key.path key.last value ⟨.header, b.entries⟩ }
  | .table key => do
    let closed ← b.close?
    let parent ← tableAt? key.path ⟨.header, closed⟩
    -- what the table already has moves to the open table, and comes back when that is closed
    let entries ← adopted? parent key.last
    let closed ← update? false key.path (fun t => some (erase key.last t.entries)) ⟨.header, closed⟩
    return ⟨closed, some s, entries⟩
  | .element key => do
    let closed ← b.close?
    let parent ← tableAt? key.path ⟨.header, closed⟩
    match parent.entries.lookup key.last with
    | none | some (.tables _) => return ⟨closed, some s, []⟩
    | some _ => none

/-- Reads a text as a document. A byte order mark at the start is dropped. -/
def ofString? (text : String) : Option Entries := do
  let cs := match text.toList with
    | '\ufeff' :: rest => rest
    | cs => cs
  let statements ← statements? cs.length cs
  let b ← statements.foldlM Building.step? ⟨[], none, []⟩
  b.close?

end VerilogScaffold.Toml
