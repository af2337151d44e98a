import VerilogScaffold.Toml.Number

/-!
# TOML scalars that are no texts

Numbers, booleans, dates and times. Each function says whether a whole word is one. Months have the
days of their year.
-/

namespace VerilogScaffold.Toml.Scalar

/-! ## Dates and times -/

/-- The value of a field of exactly as many digits. -/
def field? (width : Nat) (cs : List Char) : Option Nat :=
  if cs.length = width ∧ cs.all Char.isDigit then Number.digits? 10 cs else none

def isLeapYear (y : Nat) : Bool := y % 4 == 0 && (y % 100 != 0 || y % 400 == 0)

def daysIn (year month : Nat) : Nat :=
  if month = 2 then (if isLeapYear year then 29 else 28)
  else if month ∈ [4, 6, 9, 11] then 30 else 31

def isDate (cs : List Char) : Bool :=
  match cs with
  | [y0, y1, y2, y3, '-', m0, m1, '-', d0, d1] =>
    match field? 4 [y0, y1, y2, y3], field? 2 [m0, m1], field? 2 [d0, d1] with
    | some y, some m, some d =>
      decide (1 ≤ m ∧ m ≤ 12) && decide (1 ≤ d ∧ d ≤ daysIn y m)
    | _, _, _ => false
  | _ => false

/-- Splits a word after the time of day it starts with. -/
def splitTime? (cs : List Char) : Option (List Char) :=
  match cs with
  | h0 :: h1 :: ':' :: m0 :: m1 :: ':' :: s0 :: s1 :: rest =>
    match field? 2 [h0, h1], field? 2 [m0, m1], field? 2 [s0, s1] with
    | some h, some m, some s =>
      if h ≤ 23 ∧ m ≤ 59 ∧ s ≤ 60 then
        match rest with
        | '.' :: fraction =>
          if fraction.head?.any Char.isDigit then some (fraction.dropWhile Char.isDigit) else none
        | _ => some rest
      else none
    | _, _, _ => none
  | _ => none

def isTime (cs : List Char) : Bool := splitTime? cs == some []

/-- Whether a word is the offset of a time from the prime meridian's. -/
def isOffset (cs : List Char) : Bool :=
  match cs with
  | ['Z'] | ['z'] => true
  | sign :: [h0, h1, ':', m0, m1] =>
    (sign == '+' || sign == '-') &&
      match field? 2 [h0, h1], field? 2 [m0, m1] with
      | some h, some m => decide (h ≤ 23) && decide (m ≤ 59)
      | _, _ => false
  | _ => false

/-- Whether a word is a time of day, with an offset or without. -/
def isZonedTime (cs : List Char) : Bool :=
  match splitTime? cs with
  | some [] => true
  | some rest => isOffset rest
  | none => false

/-- Whether a word is a date and a time, joined by a letter. -/
def isDateTime (cs : List Char) : Bool :=
  isDate (cs.take 10) &&
    match cs.drop 10 with
    | t :: time => (t == 'T' || t == 't') && isZonedTime time
    | [] => false

/-- Whether a word is a scalar. -/
def isScalar (cs : List Char) : Bool :=
  cs == "true".toList || cs == "false".toList || Number.isInteger cs || Number.isFloat cs ||
    isDate cs || isTime cs || isDateTime cs

/-- The characters that words are made of. -/
def isWordChar (c : Char) : Bool := c.isAlphanum || c ∈ ['_', '+', '-', '.', ':']

/-- Splits a text after the scalar it starts with. A date and a time may also be joined by a
space. -/
def split? (cs : List Char) : Option (List Char) :=
  let word := cs.takeWhile isWordChar
  let rest := cs.dropWhile isWordChar
  if isScalar word then
    match rest with
    | ' ' :: more =>
      if isDate word && isZonedTime (more.takeWhile isWordChar) then
        some (more.dropWhile isWordChar)
      else some rest
    | _ => some rest
  else none

end VerilogScaffold.Toml.Scalar
