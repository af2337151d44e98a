/-!
# JSON values and their text

A JSON value is kept as it is written where that matters: a number by its literal, and a string
whose escapes stand for no text (a half of a surrogate pair alone) by what stands between its
quotes. All other strings are kept as the text they stand for. So every value has a written form,
and the values that records are made of have exactly one.

`Json.compact` writes a value on one line, `Json.pretty` over several.
-/

namespace VerilogScaffold

/-- A JSON string. -/
inductive JsonString
  /-- A string that stands for a text. -/
  | text (text : String)
  /-- A string whose escapes stand for no text, as it is written between its quotes. -/
  | unpaired (body : List Char)
  deriving DecidableEq

/-- A JSON value. -/
inductive Json
  | null
  | bool (value : Bool)
  | number (literal : List Char)
  | string (value : JsonString)
  | array (items : List Json)
  | object (entries : List (JsonString × Json))

namespace Json

/-- The value of a natural number. -/
def ofNat (n : Nat) : Json := .number (Nat.toDigits 10 n)

/-- The value of a text. -/
def ofText (s : String) : Json := .string (.text s)

/-- A record, with its fields in order. -/
def ofFields (fields : List (String × Json)) : Json :=
  .object (fields.map fun f => (.text f.1, f.2))

/-! ## Strings -/

/-- A hexadecimal digit. -/
def hexDigit (n : Nat) : Char := Nat.digitChar n

/-- A character as it is written in a string. Quotes, backslashes and control characters are
escaped, those that have a short escape by that one. -/
def escapeChar (c : Char) : List Char :=
  match c with
  | '"' => ['\\', '"']
  | '\\' => ['\\', '\\']
  | '\x08' => ['\\', 'b']
  | '\x0c' => ['\\', 'f']
  | '\n' => ['\\', 'n']
  | '\r' => ['\\', 'r']
  | '\t' => ['\\', 't']
  | _ =>
    if c.toNat < 0x20 then
      ['\\', 'u', '0', '0', hexDigit (c.toNat / 16), hexDigit (c.toNat % 16)]
    else [c]

/-- What is written between the quotes of a string. -/
def stringBody : JsonString → List Char
  | .text s => s.toList.flatMap escapeChar
  | .unpaired body => body

/-- A string as it is written. -/
def writeString (s : JsonString) : List Char := '"' :: (stringBody s ++ ['"'])

/-! ## One line -/

mutual

/-- A value written without any blanks. -/
def write : Json → List Char
  | .null => "null".toList
  | .bool true => "true".toList
  | .bool false => "false".toList
  | .number literal => literal
  | .string s => writeString s
  | .array [] => ['[', ']']
  | .array (item :: items) => '[' :: (write item ++ writeItems items)
  | .object [] => ['\x7b', '\x7d']
  | .object ((key, value) :: entries) =>
    '\x7b' :: (writeString key ++ ':' :: (write value ++ writeEntries entries))

/-- The items of an array after its first, with the closing bracket. -/
def writeItems : List Json → List Char
  | [] => [']']
  | item :: items => ',' :: (write item ++ writeItems items)

/-- The entries of an object after its first, with the closing brace. -/
def writeEntries : List (JsonString × Json) → List Char
  | [] => ['\x7d']
  | (key, value) :: entries =>
    ',' :: (writeString key ++ ':' :: (write value ++ writeEntries entries))

end

/-- A value on one line. -/
def compact (j : Json) : String := String.ofList (write j)

/-! ## Several lines -/

/-- A new line at a depth of nesting, indented by two spaces a level. -/
def newLine (depth : Nat) : List Char := '\n' :: List.replicate (2 * depth) ' '

mutual

/-- A value written with each item and entry on a line of its own. -/
def writeLines (depth : Nat) : Json → List Char
  | .null => "null".toList
  | .bool true => "true".toList
  | .bool false => "false".toList
  | .number literal => literal
  | .string s => writeString s
  | .array [] => ['[', ']']
  | .array (item :: items) =>
    '[' :: (newLine (depth + 1) ++ writeLines (depth + 1) item ++ writeItemLines depth items)
  | .object [] => ['\x7b', '\x7d']
  | .object ((key, value) :: entries) =>
    '\x7b' :: (newLine (depth + 1) ++ writeString key ++ ':' :: ' ' ::
      (writeLines (depth + 1) value ++ writeEntryLines depth entries))

/-- The lines of an array after its first item. -/
def writeItemLines (depth : Nat) : List Json → List Char
  | [] => newLine depth ++ [']']
  | item :: items =>
    ',' :: (newLine (depth + 1) ++ writeLines (depth + 1) item ++ writeItemLines depth items)

/-- The lines of an object after its first entry. -/
def writeEntryLines (depth : Nat) : List (JsonString × Json) → List Char
  | [] => newLine depth ++ ['\x7d']
  | (key, value) :: entries =>
    ',' :: (newLine (depth + 1) ++ writeString key ++ ':' :: ' ' ::
      (writeLines (depth + 1) value ++ writeEntryLines depth entries))

end

/-- A value over several lines, without a newline at the end. -/
def pretty (j : Json) : String := String.ofList (writeLines 0 j)

end Json

end VerilogScaffold
