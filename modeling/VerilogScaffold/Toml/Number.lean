/-!
# TOML numbers

`isInteger` and `isFloat` say whether a whole word is a number. Digits may be grouped by single
underscores. Whole numbers fit in 64 bits with a sign. A number with a point or an exponent may be
as small as it likes, also below zero, but must not round to infinity above it:
`Decimal.isFinite_iff` says which ones do not.
-/

namespace VerilogScaffold.Toml.Number

/-- The value of a digit in any base up to sixteen. -/
def digitValue? (c : Char) : Option Nat :=
  if c.isDigit then some (c.toNat - '0'.toNat)
  else if 'a' ≤ c ∧ c ≤ 'f' then some (c.toNat - 'a'.toNat + 10)
  else if 'A' ≤ c ∧ c ≤ 'F' then some (c.toNat - 'A'.toNat + 10)
  else none

/-- The value of the digits of a number, of which there must be one. An underscore stands between
two digits. -/
def digits? (base : Nat) (cs : List Char) : Option Nat :=
  go cs none false
where
  /-- `value` is that of the digits so far, and `joined` says that an underscore came last. -/
  go (cs : List Char) (value : Option Nat) (joined : Bool) : Option Nat :=
    match cs with
    | [] => if joined then none else value
    | '_' :: rest => if joined ∨ value = none then none else go rest value true
    | c :: rest =>
      match digitValue? c with
      | some d => if d < base then go rest (some (base * value.getD 0 + d)) false else none
      | none => none

/-- The sign a word starts with, and the rest of it. -/
def splitSign : List Char → Option Char × List Char
  | '+' :: rest => (some '+', rest)
  | '-' :: rest => (some '-', rest)
  | cs => (none, cs)

/-- Whether digits have no leading zero. -/
def isPlain : List Char → Bool
  | '0' :: _ :: _ => false
  | _ => true

/-- What a whole number must stay below to fit in 64 bits with a sign. -/
def integerBound : Nat := 0x8000000000000000

def isInteger (cs : List Char) : Bool :=
  match cs with
  | '0' :: 'x' :: rest => ((digits? 16 rest).filter (· < integerBound)).isSome
  | '0' :: 'o' :: rest => ((digits? 8 rest).filter (· < integerBound)).isSome
  | '0' :: 'b' :: rest => ((digits? 2 rest).filter (· < integerBound)).isSome
  | _ =>
    let (sign, rest) := splitSign cs
    isPlain rest &&
      ((digits? 10 rest).filter (· < integerBound + if sign = some '-' then 1 else 0)).isSome

/-! ## Decimal numbers -/

/-- A power of ten. -/
def tenPow (n : Nat) : Nat := Nat.pow 10 n

theorem tenPow_add (m n : Nat) : tenPow (m + n) = tenPow m * tenPow n := Nat.pow_add ..

theorem tenPow_pos (n : Nat) : 0 < tenPow n := Nat.pow_pos (by decide)

theorem tenPow_le {m n : Nat} (h : m ≤ n) : tenPow m ≤ tenPow n :=
  Nat.pow_le_pow_right (by decide) h

/-- A decimal number: its significand times that power of ten, or as much below zero. -/
structure Decimal where
  isNegative : Bool
  significand : Nat
  exponent : Int

namespace Decimal

/-- What a number must stay below to round to a finite one of 64 bits: half a step above the
greatest of those. -/
def finiteBound : Nat := 1 <<< 1024 - 1 <<< 970

/-- Whether a number is finite when it is rounded to 64 bits, its sign aside. The count of its
digits before the point decides unless it is that of the bound, so a huge exponent is never raised
to. -/
def isFinite (d : Decimal) : Bool :=
  let count : Int := (Nat.toDigits 10 d.significand).length + d.exponent
  d.significand == 0 || count < 309 ||
    count == 309 &&
      d.significand * tenPow d.exponent.toNat < finiteBound * tenPow (-d.exponent).toNat

private theorem tenPow_add_le {m b : Nat} (h : tenPow m ≤ b) (k : Nat) :
    tenPow (m + k) ≤ b * tenPow k := by
  rw [tenPow_add]
  exact Nat.mul_le_mul_right _ h

private theorem le_tenPow_add {m b : Nat} (h : b ≤ tenPow m) (k : Nat) :
    b * tenPow k ≤ tenPow (m + k) := by
  rw [tenPow_add]
  exact Nat.mul_le_mul_right _ h

private theorem tenPow_le_finiteBound : tenPow 308 ≤ finiteBound := by decide +kernel

private theorem finiteBound_le_tenPow : finiteBound ≤ tenPow 309 := by decide +kernel

/-- A number is finite when it stays below the bound. Both sides are cleared of the power of ten
that divides the significand. -/
theorem isFinite_iff (d : Decimal) :
    d.isFinite = true ↔
      d.significand * tenPow d.exponent.toNat < finiteBound * tenPow (-d.exponent).toNat := by
  obtain ⟨-, s, e⟩ := d
  simp only [isFinite, Bool.or_eq_true, Bool.and_eq_true, beq_iff_eq, decide_eq_true_eq]
  rcases Nat.eq_zero_or_pos s with rfl | hs
  · simpa using Nat.lt_of_lt_of_le (tenPow_pos _) (tenPow_add_le tenPow_le_finiteBound (-e).toNat)
  generalize hcount : (Nat.toDigits 10 s).length = n
  have hn : 0 < n := hcount ▸ Nat.length_toDigits_pos
  have hlt : s < tenPow n := (Nat.length_toDigits_le_iff (by decide) hn).1 (by omega)
  have hle : tenPow (n - 1) ≤ s := by
    rcases Nat.eq_zero_or_pos (n - 1) with h | h
    · rw [h]
      exact hs
    · exact Nat.le_of_not_lt fun hlt => by
        have := (Nat.length_toDigits_le_iff (by decide) h).2 hlt
        omega
  generalize ha : e.toNat = a
  generalize hb : (-e).toNat = b
  rcases Int.lt_trichotomy (n + e) 309 with h | h | h
  · have : s * tenPow a < finiteBound * tenPow b :=
      calc s * tenPow a < tenPow n * tenPow a := Nat.mul_lt_mul_of_pos_right hlt (tenPow_pos a)
        _ = tenPow (n + a) := (tenPow_add ..).symm
        _ ≤ tenPow (308 + b) := tenPow_le (by omega)
        _ ≤ finiteBound * tenPow b := tenPow_add_le tenPow_le_finiteBound b
    simp [h, this]
  · have : s ≠ 0 := by omega
    simp [h, this]
  · have : finiteBound * tenPow b ≤ s * tenPow a :=
      calc finiteBound * tenPow b ≤ tenPow (309 + b) := le_tenPow_add finiteBound_le_tenPow b
        _ ≤ tenPow (n - 1 + a) := tenPow_le (by omega)
        _ = tenPow (n - 1) * tenPow a := tenPow_add ..
        _ ≤ s * tenPow a := Nat.mul_le_mul_right _ hle
    simp only [Nat.not_lt.2 this, and_false, or_false, iff_false]
    omega

end Decimal

/-- The value of a whole number with or without a sign. -/
def signed? (cs : List Char) : Option Int :=
  let (sign, rest) := splitSign cs
  (digits? 10 rest).map fun n => if sign = some '-' then -n else n

/-- Splits a word at the first character that satisfies a test. -/
def splitAtFirst (p : Char → Bool) (cs : List Char) : List Char × Option (List Char) :=
  match cs.dropWhile (!p ·) with
  | [] => (cs, none)
  | _ :: rest => (cs.takeWhile (!p ·), some rest)

/-- The number that a word of digits stands for. It has a point or an exponent, or both. -/
def decimal? (cs : List Char) : Option Decimal := do
  let (sign, rest) := splitSign cs
  let (mantissa, power) := splitAtFirst (fun c => c == 'e' || c == 'E') rest
  let (whole, fraction) := splitAtFirst (· == '.') mantissa
  if !isPlain whole || fraction.isNone && power.isNone then none
  else
    let w ← digits? 10 whole
    let f ← (fraction.map (digits? 10)).getD (some 0)
    let e ← (power.map signed?).getD (some 0)
    let places := (fraction.getD []).countP Char.isDigit
    return ⟨sign == some '-', w * tenPow places + f, e - places⟩

def isFloat (cs : List Char) : Bool :=
  let rest := (splitSign cs).2
  rest == "inf".toList || rest == "nan".toList ||
    (decimal? cs).any fun d => d.isNegative || d.isFinite

end VerilogScaffold.Toml.Number
