import VerilogScaffold.Diagnostic.Basic
import VerilogScaffold.Json.Reader
import VerilogScaffold.Template.Kind
import VerilogScaffold.Token.Basic

/-!
# Records as JSON

The types that are passed to other programs have a JSON form. A record is an object with its fields
by name; it may also be read from an array of its fields in order. Fields that are not known are
passed over, but each known field must be there exactly once. A value of an enumeration is its
label, or an object with the label as its one key and `null` as the value. Numbers are whole,
written plainly, and fit the width of their field.

`JsonForm` holds the two directions, and `decode?` and `encode` pass through the text.
-/

namespace VerilogScaffold

/-- A type with a JSON form. -/
class JsonForm (α : Type) where
  toJson : α → Json
  ofJson? : Json → Option α

namespace Json

/-! ## Reading -/

/-- The text of a value that is one. -/
def text? : Json → Option String
  | .string (.text s) => some s
  | _ => none

/-- The value of a number literal that is a plain natural number. -/
def literalNat? (literal : List Char) : Option Nat :=
  if literal ≠ [] ∧ literal.all Char.isDigit then
    some (literal.foldl (fun n c => 10 * n + (c.toNat - '0'.toNat)) 0)
  else none

/-- The natural number of a value that is one below a bound. -/
def natBelow? (bound : Nat) : Json → Option Nat
  | .number literal => (literalNat? literal).filter (· < bound)
  | _ => none

/-- The items of an array. -/
def items? : Json → Option (List Json)
  | .array items => some items
  | _ => none

/-- The value of a field that an object has exactly once. -/
def field? (entries : List (JsonString × Json)) (name : String) : Option Json :=
  match entries.filter (·.1 = .text name) with
  | [(_, value)] => some value
  | _ => none

/-- Whether the key of an entry stands for a text. -/
def hasTextKey (entry : JsonString × Json) : Bool :=
  match entry.1 with
  | .text _ => true
  | .unpaired _ => false

/-- The fields of a record with the given names, in that order. -/
def fields? (names : List String) : Json → Option (List Json)
  | .object entries => if entries.all hasTextKey then names.mapM (field? entries) else none
  | .array items => if items.length = names.length then some items else none
  | _ => none

/-- The label of an enumeration's value. -/
def label? : Json → Option String
  | .string (.text s) => some s
  | .object [(.text s, .null)] => some s
  | _ => none

/-- The value among `all` that has the label a JSON value gives. -/
def labelled? {α : Type} (all : List α) (label : α → String) (j : Json) : Option α := do
  let s ← j.label?
  all.find? (label · == s)

/-- The list whose items a JSON value gives. -/
def list? {α : Type} [JsonForm α] (j : Json) : Option (List α) := do
  (← j.items?).mapM JsonForm.ofJson?

/-- The JSON value of a list. -/
def ofList {α : Type} [JsonForm α] (xs : List α) : Json := .array (xs.map JsonForm.toJson)

/-! ## Through the text -/

/-- Writes a value on one line. -/
def encode {α : Type} [JsonForm α] (a : α) : String := (JsonForm.toJson a).compact

/-- Reads a value from a text. -/
def decode? {α : Type} [JsonForm α] (text : String) : Option α := do
  JsonForm.ofJson? (← Json.ofString? text)

end Json

/-! ## Words and numbers -/

instance : JsonForm String where
  toJson := Json.ofText
  ofJson? := Json.text?

instance : JsonForm UInt32 where
  toJson n := Json.ofNat n.toNat
  ofJson? j := (j.natBelow? UInt32.size).map .ofNat

instance : JsonForm UInt16 where
  toJson n := Json.ofNat n.toNat
  ofJson? j := (j.natBelow? UInt16.size).map .ofNat

/-! ## Enumerations -/

/-- The name of a direction in machine-readable output. -/
def Direction.label : Direction → String
  | .input => "Input"
  | .output => "Output"
  | .inout => "Inout"

/-- The name of a severity in machine-readable output. -/
def Severity.label : Severity → String
  | .note => "Note"
  | .warning => "Warning"
  | .error => "Error"

/-- The name of a category in machine-readable output. -/
def Category.label : Category → String
  | .error => "Error"
  | .warning => "Warning"

instance : JsonForm Direction where
  toJson d := Json.ofText d.label
  ofJson? := Json.labelled? Direction.all Direction.label

instance : JsonForm Severity where
  toJson s := Json.ofText s.label
  ofJson? := Json.labelled? [.note, .warning, .error] Severity.label

instance : JsonForm Category where
  toJson c := Json.ofText c.label
  ofJson? := Json.labelled? [.error, .warning] Category.label

instance : JsonForm TokenKind where
  toJson k := Json.ofText k.label
  ofJson? := Json.labelled? TokenKind.all TokenKind.label

instance : JsonForm ScaffoldKind where
  toJson k := Json.ofText k.word
  ofJson? := Json.labelled? ScaffoldKind.all ScaffoldKind.word

/-! ## Records -/

open JsonForm

instance : JsonForm Span where
  toJson s := Json.ofFields [("start", toJson s.start), ("end", toJson s.stop)]
  ofJson? j := do
    match ← j.fields? ["start", "end"] with
    | [start, stop] => return ⟨← ofJson? start, ← ofJson? stop⟩
    | _ => none

instance : JsonForm Token where
  toJson t := Json.ofFields [("kind", toJson t.kind), ("span", toJson t.span)]
  ofJson? j := do
    match ← j.fields? ["kind", "span"] with
    | [kind, span] => return ⟨← ofJson? kind, ← ofJson? span⟩
    | _ => none

instance : JsonForm Parameter where
  toJson p := Json.ofFields [("name", toJson p.name), ("value", toJson p.value)]
  ofJson? j := do
    match ← j.fields? ["name", "value"] with
    | [name, value] => return ⟨← ofJson? name, ← ofJson? value⟩
    | _ => none

instance : JsonForm Port where
  toJson p := Json.ofFields [("name", toJson p.name), ("range", toJson p.range)]
  ofJson? j := do
    match ← j.fields? ["name", "range"] with
    | [name, range] => return ⟨← ofJson? name, ← ofJson? range⟩
    | _ => none

instance : JsonForm Signature where
  toJson s := Json.ofFields [("name", toJson s.name), ("parameters", Json.ofList s.parameters),
    ("inputs", Json.ofList s.inputs), ("outputs", Json.ofList s.outputs),
    ("inouts", Json.ofList s.inouts)]
  ofJson? j := do
    match ← j.fields? ["name", "parameters", "inputs", "outputs", "inouts"] with
    | [name, parameters, inputs, outputs, inouts] =>
      return ⟨← ofJson? name, ← parameters.list?, ← inputs.list?, ← outputs.list?, ← inouts.list?⟩
    | _ => none

instance : JsonForm DiagnosticCode where
  toJson c := Json.ofFields [("category", toJson c.category), ("number", toJson c.number)]
  ofJson? j := do
    match ← j.fields? ["category", "number"] with
    | [category, number] => return ⟨← ofJson? category, ← ofJson? number⟩
    | _ => none

instance : JsonForm Diagnostic where
  toJson d := Json.ofFields [("severity", toJson d.severity), ("code", toJson d.code),
    ("message", toJson d.message), ("primary_span", toJson d.span), ("notes", Json.ofList d.notes),
    ("help", Json.ofList d.help)]
  ofJson? j := do
    match ← j.fields? ["severity", "code", "message", "primary_span", "notes", "help"] with
    | [severity, code, message, span, notes, help] =>
      return ⟨← ofJson? severity, ← ofJson? code, ← ofJson? message, ← ofJson? span,
        ← notes.list?, ← help.list?⟩
    | _ => none

end VerilogScaffold
