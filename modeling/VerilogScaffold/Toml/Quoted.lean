/-!
# TOML strings

Strings are basic, with escapes, or literal, without; each kind on one line or over several. Control
characters other than tab are never allowed, and newlines only over several lines, where one right
after the opening quotes is dropped and a carriage return before a newline is not kept.

Each function reads a string after its opening quotes and returns its text and what follows.
-/

namespace VerilogScaffold.Toml.Quoted

/-- The characters that may stand in a string or comment as they are. -/
def isPlain (c : Char) : Bool := c == '\t' || decide (0x20 ≤ c.toNat) && c.toNat != 0x7F

/-- The value of hexadecimal digits. -/
def hex? (cs : List Char) : Option Nat :=
  cs.foldl (fun value c => do
    let v ← value
    let d ← if c.isDigit then some (c.toNat - '0'.toNat)
      else if 'a' ≤ c ∧ c ≤ 'f' then some (c.toNat - 'a'.toNat + 10)
      else if 'A' ≤ c ∧ c ≤ 'F' then some (c.toNat - 'A'.toNat + 10)
      else none
    return 16 * v + d) (some 0)

/-- The character that hexadecimal digits name. -/
def hexChar? (cs : List Char) : Option Char := do
  let n ← hex? cs
  if Nat.isValidChar n then some (Char.ofNat n) else none

/-- The character of an escape of one letter. -/
def escape? : Char → Option Char
  | 'b' => some '\x08'
  | 't' => some '\t'
  | 'n' => some '\n'
  | 'f' => some '\x0c'
  | 'r' => some '\r'
  | '"' => some '"'
  | '\\' => some '\\'
  | _ => none

/-- Puts a character in front of the text of a string. -/
def cons? (c : Option Char) (s : Option (List Char × List Char)) :
    Option (List Char × List Char) := do
  let c ← c
  let (text, rest) ← s
  return (c :: text, rest)

/-- A basic string on one line. -/
def basic? : List Char → Option (List Char × List Char)
  | [] => none
  | '"' :: rest => some ([], rest)
  | '\\' :: 'u' :: a :: b :: c :: d :: rest => cons? (hexChar? [a, b, c, d]) (basic? rest)
  | '\\' :: 'U' :: a :: b :: c :: d :: e :: f :: g :: h :: rest =>
    cons? (hexChar? [a, b, c, d, e, f, g, h]) (basic? rest)
  | '\\' :: e :: rest => cons? (escape? e) (basic? rest)
  | c :: rest => if isPlain c ∧ c ≠ '\\' then cons? (some c) (basic? rest) else none

/-- A literal string on one line. -/
def literal? : List Char → Option (List Char × List Char)
  | [] => none
  | '\'' :: rest => some ([], rest)
  | c :: rest => if isPlain c then cons? (some c) (literal? rest) else none

/-- Up to two more quotes after the three that close a string belong to its text. -/
def closing (quote : Char) : List Char → List Char × List Char
  | a :: b :: rest =>
    if a = quote then if b = quote then ([a, b], rest) else ([a], b :: rest)
      else ([], a :: b :: rest)
  | [a] => if a = quote then ([a], []) else ([], [a])
  | [] => ([], [])

/-- Whether a text goes on with a newline after spaces and tabs. -/
def lineEndsAfterGap (cs : List Char) : Bool :=
  match cs.dropWhile (fun c => c == ' ' || c == '\t') with
  | '\n' :: _ | '\r' :: '\n' :: _ => true
  | _ => false

/-- A basic string over several lines. A backslash at the end of a line takes all blanks after it
away; `trimming` says that this is going on. -/
def basicLines? (trimming : Bool) : List Char → Option (List Char × List Char)
  | [] => none
  | '"' :: '"' :: '"' :: rest => some (closing '"' rest)
  | '\r' :: '\n' :: rest =>
    if trimming then basicLines? true rest else cons? (some '\n') (basicLines? false rest)
  | '\n' :: rest =>
    if trimming then basicLines? true rest else cons? (some '\n') (basicLines? false rest)
  | '\\' :: 'u' :: a :: b :: c :: d :: rest =>
    cons? (hexChar? [a, b, c, d]) (basicLines? false rest)
  | '\\' :: 'U' :: a :: b :: c :: d :: e :: f :: g :: h :: rest =>
    cons? (hexChar? [a, b, c, d, e, f, g, h]) (basicLines? false rest)
  | '\\' :: e :: rest =>
    if lineEndsAfterGap (e :: rest) then basicLines? true (e :: rest)
    else cons? (escape? e) (basicLines? false rest)
  | c :: rest =>
    if trimming ∧ (c = ' ' ∨ c = '\t') then basicLines? true rest
    else if isPlain c ∧ c ≠ '\\' then cons? (some c) (basicLines? false rest)
    else none

/-- A literal string over several lines. -/
def literalLines? : List Char → Option (List Char × List Char)
  | [] => none
  | '\'' :: '\'' :: '\'' :: rest => some (closing '\'' rest)
  | '\r' :: '\n' :: rest => cons? (some '\n') (literalLines? rest)
  | c :: rest => if isPlain c ∨ c = '\n' then cons? (some c) (literalLines? rest) else none

/-- Drops the newline right after the opening quotes. -/
def dropFirstNewline : List Char → List Char
  | '\n' :: rest => rest
  | '\r' :: '\n' :: rest => rest
  | cs => cs

/-- Reads the string that a text starts with, quotes and all. -/
def read? : List Char → Option (String × List Char)
  | '"' :: '"' :: '"' :: rest => finish (basicLines? false (dropFirstNewline rest))
  | '"' :: rest => finish (basic? rest)
  | '\'' :: '\'' :: '\'' :: rest => finish (literalLines? (dropFirstNewline rest))
  | '\'' :: rest => finish (literal? rest)
  | _ => none
where
  finish (s : Option (List Char × List Char)) : Option (String × List Char) :=
    s.map fun (text, rest) => (String.ofList text, rest)

end VerilogScaffold.Toml.Quoted
