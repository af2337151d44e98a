import VerilogScaffold.Json.Basic

/-!
# Reading JSON

A text is read as one JSON value with nothing but blanks around it. Blanks are space, tab, newline
and carriage return; numbers have no leading zeros; strings hold no control characters.

A string is read in two steps: `splitBody?` finds its end, checking that every escape is one, and
`decodeBody?` says what text it stands for, which needs every escaped half of a surrogate pair to
meet its other half. The recursion over values is bounded by the length of the text.
-/

namespace VerilogScaffold.Json

def isJsonBlank (c : Char) : Bool := c == ' ' || c == '\t' || c == '\n' || c == '\r'

/-- Drops the blanks a text starts with. -/
def skipBlanks (cs : List Char) : List Char := cs.dropWhile isJsonBlank

/-! ## Strings -/

/-- The value of a hexadecimal digit. -/
def hexValue? (c : Char) : Option Nat :=
  if c.isDigit then some (c.toNat - '0'.toNat)
  else if 'a' ≤ c ∧ c ≤ 'f' then some (c.toNat - 'a'.toNat + 10)
  else if 'A' ≤ c ∧ c ≤ 'F' then some (c.toNat - 'A'.toNat + 10)
  else none

/-- The value of four hexadecimal digits. -/
def hexUnit? (a b c d : Char) : Option Nat := do
  return (((← hexValue? a) * 16 + (← hexValue? b)) * 16 + (← hexValue? c)) * 16 + (← hexValue? d)

/-- The character of an escape of one letter. -/
def shortEscape? : Char → Option Char
  | '"' => some '"'
  | '\\' => some '\\'
  | '/' => some '/'
  | 'b' => some '\x08'
  | 'f' => some '\x0c'
  | 'n' => some '\n'
  | 'r' => some '\r'
  | 't' => some '\t'
  | _ => none

/-- Splits a text that starts inside a string at the closing quote: what stands before it, and what
follows. -/
def splitBody? : List Char → Option (List Char × List Char)
  | [] => none
  | '"' :: rest => some ([], rest)
  | '\\' :: 'u' :: a :: b :: c :: d :: rest => do
    let _ ← hexUnit? a b c d
    let (body, after) ← splitBody? rest
    return ('\\' :: 'u' :: a :: b :: c :: d :: body, after)
  | '\\' :: e :: rest => do
    let _ ← shortEscape? e
    let (body, after) ← splitBody? rest
    return ('\\' :: e :: body, after)
  | c :: rest =>
    if c = '\\' ∨ c.toNat < 0x20 then none
    else do
      let (body, after) ← splitBody? rest
      return (c :: body, after)

/-- The character of a surrogate pair. -/
def pairChar (high low : Nat) :
    Char := Char.ofNat (0x10000 + (high - 0xD800) * 0x400 + (low - 0xDC00))

def isHighSurrogate (n : Nat) : Bool := decide (0xD800 ≤ n) && decide (n ≤ 0xDBFF)

def isLowSurrogate (n : Nat) : Bool := decide (0xDC00 ≤ n) && decide (n ≤ 0xDFFF)

/-- The text that the body of a string stands for. -/
def decodeBody? : List Char → Option (List Char)
  | [] => some []
  | '\\' :: 'u' :: a :: b :: c :: d :: '\\' :: 'u' :: e :: f :: g :: h :: rest => do
    let first ← hexUnit? a b c d
    if isHighSurrogate first then
      let second ← hexUnit? e f g h
      if isLowSurrogate second then return pairChar first second :: (← decodeBody? rest)
      else none
    else if isLowSurrogate first then none
    else return Char.ofNat first :: (← decodeBody? ('\\' :: 'u' :: e :: f :: g :: h :: rest))
  | '\\' :: 'u' :: a :: b :: c :: d :: rest => do
    let unit ← hexUnit? a b c d
    if isHighSurrogate unit || isLowSurrogate unit then none
    else return Char.ofNat unit :: (← decodeBody? rest)
  | '\\' :: e :: rest => do
    let c ← shortEscape? e
    return c :: (← decodeBody? rest)
  | c :: rest => do
    return c :: (← decodeBody? rest)

/-- Reads a string after its opening quote. -/
def readString? (cs : List Char) : Option (JsonString × List Char) := do
  let (body, rest) ← splitBody? cs
  match decodeBody? body with
  | some text => return (.text (String.ofList text), rest)
  | none => return (.unpaired body, rest)

/-! ## Numbers -/

/-- Splits a text after the digits it starts with. -/
def splitDigits (cs : List Char) : List Char × List Char :=
  (cs.takeWhile Char.isDigit, cs.dropWhile Char.isDigit)

/-- Splits a text after the digits it starts with, of which there must be one. -/
def splitDigits1? (cs : List Char) : Option (List Char × List Char) :=
  match splitDigits cs with
  | ([], _) => none
  | found => some found

/-- Splits a text after the integer part of a number. -/
def splitInteger? : List Char → Option (List Char × List Char)
  | '0' :: rest => some (['0'], rest)
  | cs => splitDigits1? cs

/-- Splits a text after the fraction it may start with. -/
def splitFraction? : List Char → Option (List Char × List Char)
  | '.' :: rest => (splitDigits1? rest).map fun (digits, after) => ('.' :: digits, after)
  | cs => some ([], cs)

/-- Splits a text after the exponent it may start with. -/
def splitExponent? : List Char → Option (List Char × List Char)
  | e :: rest =>
    if e == 'e' || e == 'E' then
      match rest with
      | '+' :: after => (splitDigits1? after).map fun (digits, after) => (e :: '+' :: digits, after)
      | '-' :: after => (splitDigits1? after).map fun (digits, after) => (e :: '-' :: digits, after)
      | _ => (splitDigits1? rest).map fun (digits, after) => (e :: digits, after)
    else some ([], e :: rest)
  | [] => some ([], [])

/-- Reads a number. -/
def readNumber? (cs : List Char) : Option (Json × List Char) := do
  let (sign, unsigned) := match cs with
    | '-' :: rest => (['-'], rest)
    | _ => ([], cs)
  let (whole, rest) ← splitInteger? unsigned
  let (fraction, rest) ← splitFraction? rest
  let (exponent, rest) ← splitExponent? rest
  return (.number (sign ++ whole ++ fraction ++ exponent), rest)

/-! ## Values -/

mutual

/-- Reads a value, with `bound` steps to go. -/
def readValue? (bound : Nat) (cs : List Char) : Option (Json × List Char) :=
  match bound with
  | 0 => none
  | n + 1 =>
    match skipBlanks cs with
    | 'n' :: 'u' :: 'l' :: 'l' :: rest => some (.null, rest)
    | 't' :: 'r' :: 'u' :: 'e' :: rest => some (.bool true, rest)
    | 'f' :: 'a' :: 'l' :: 's' :: 'e' :: rest => some (.bool false, rest)
    | '"' :: rest => (readString? rest).map fun (s, after) => (.string s, after)
    | '[' :: rest =>
      match skipBlanks rest with
      | ']' :: after => some (.array [], after)
      | first => do
        let (item, rest) ← readValue? n first
        let (items, rest) ← readItems? n rest
        return (.array (item :: items), rest)
    | '\x7b' :: rest =>
      match skipBlanks rest with
      | '\x7d' :: after => some (.object [], after)
      | first => do
        let (entry, rest) ← readEntry? n first
        let (entries, rest) ← readEntries? n rest
        return (.object (entry :: entries), rest)
    | other => readNumber? other

/-- Reads the items of an array after one, up to and with the closing bracket. -/
def readItems? (bound : Nat) (cs : List Char) : Option (List Json × List Char) :=
  match bound with
  | 0 => none
  | n + 1 =>
    match skipBlanks cs with
    | ']' :: rest => some ([], rest)
    | ',' :: rest => do
      let (item, rest) ← readValue? n rest
      let (items, rest) ← readItems? n rest
      return (item :: items, rest)
    | _ => none

/-- Reads an entry of an object. -/
def readEntry? (bound : Nat) (cs : List Char) : Option ((JsonString × Json) × List Char) :=
  match bound with
  | 0 => none
  | n + 1 =>
    match skipBlanks cs with
    | '"' :: rest => do
      let (key, rest) ← readString? rest
      match skipBlanks rest with
      | ':' :: rest => do
        let (value, rest) ← readValue? n rest
        return ((key, value), rest)
      | _ => none
    | _ => none

/-- Reads the entries of an object after one, up to and with the closing brace. -/
def readEntries? (bound : Nat) (cs : List Char) : Option (List (JsonString × Json) × List Char) :=
  match bound with
  | 0 => none
  | n + 1 =>
    match skipBlanks cs with
    | '\x7d' :: rest => some ([], rest)
    | ',' :: rest => do
      let (entry, rest) ← readEntry? n rest
      let (entries, rest) ← readEntries? n rest
      return (entry :: entries, rest)
    | _ => none

end

/-- Reads a text as a JSON value. Each step of the reading that calls for another has used up a
character or is one of two for the next, so twice the length of the text bounds it. -/
def ofString? (text : String) : Option Json := do
  let cs := text.toList
  let (value, rest) ← readValue? (2 * cs.length + 2) cs
  if skipBlanks rest = [] then some value else none

end VerilogScaffold.Json
