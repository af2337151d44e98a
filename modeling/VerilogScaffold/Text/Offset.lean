/-!
# Byte offsets into text

Places in a source are byte offsets into its UTF-8 form, while the text itself is handled as a list
of characters. This module holds the passage between the two: how many bytes a list of characters
takes, and the characters between two byte offsets.

An offset that points past the end or inside a character is no place to cut: `dropBytes?`,
`takeBytes?` and `slice?` answer `none` there. `slice?_append` says what they answer everywhere
else.
-/

namespace VerilogScaffold.Text

/-- The number of bytes of the UTF-8 form of a list of characters. -/
def byteLength : List Char → Nat
  | [] => 0
  | c :: cs => c.utf8Size + byteLength cs

/-- The characters after the first `n` bytes, if a character ends there. -/
def dropBytes? : Nat → List Char → Option (List Char)
  | 0, cs => some cs
  | _ + 1, [] => none
  | n + 1, c :: cs => if c.utf8Size ≤ n + 1 then dropBytes? (n + 1 - c.utf8Size) cs else none

/-- The characters that make up the first `n` bytes, if a character ends there. -/
def takeBytes? : Nat → List Char → Option (List Char)
  | 0, _ => some []
  | _ + 1, [] => none
  | n + 1, c :: cs =>
    if c.utf8Size ≤ n + 1 then (takeBytes? (n + 1 - c.utf8Size) cs).map (c :: ·) else none

/-- The characters from byte `start` up to byte `stop`, if both are character boundaries in that
order. -/
def slice? (start stop : Nat) (cs : List Char) : Option (List Char) :=
  if start ≤ stop then (dropBytes? start cs).bind (takeBytes? (stop - start)) else none

/-- The characters that end at or before byte `n`: all of them if `n` lies past the end, and without
the one that `n` falls inside. -/
def charsBefore (n : Nat) : List Char → List Char
  | [] => []
  | c :: cs => if c.utf8Size ≤ n then c :: charsBefore (n - c.utf8Size) cs else []

/-! ## Laws of the cut -/

@[simp] theorem byteLength_append (xs ys : List Char) :
    byteLength (xs ++ ys) = byteLength xs + byteLength ys := by
  induction xs with
  | nil => simp [byteLength]
  | cons c cs ih => simp [byteLength, ih, Nat.add_assoc]

theorem length_le_byteLength (cs : List Char) : cs.length ≤ byteLength cs := by
  induction cs with
  | nil => simp [byteLength]
  | cons c cs ih =>
    have := c.utf8Size_pos
    simp only [List.length_cons, byteLength]
    omega

/-- A cut behind the first character is a cut of the others. -/
theorem dropBytes?_cons (c : Char) (cs : List Char) (n : Nat) :
    dropBytes? (c.utf8Size + n) (c :: cs) = dropBytes? n cs := by
  obtain ⟨size, hsize⟩ := Nat.exists_eq_add_of_lt c.utf8Size_pos
  rw [hsize, Nat.zero_add, Nat.add_right_comm, dropBytes?, hsize, if_pos (by omega)]
  congr 1
  omega

theorem takeBytes?_cons (c : Char) (cs : List Char) (n : Nat) :
    takeBytes? (c.utf8Size + n) (c :: cs) = (takeBytes? n cs).map (c :: ·) := by
  obtain ⟨size, hsize⟩ := Nat.exists_eq_add_of_lt c.utf8Size_pos
  rw [hsize, Nat.zero_add, Nat.add_right_comm, takeBytes?, hsize, if_pos (by omega)]
  congr 2
  omega

theorem dropBytes?_append (xs ys : List Char) :
    dropBytes? (byteLength xs) (xs ++ ys) = some ys := by
  induction xs with
  | nil => simp [byteLength, dropBytes?]
  | cons c cs ih => rw [List.cons_append, byteLength, dropBytes?_cons, ih]

theorem takeBytes?_append (xs ys : List Char) :
    takeBytes? (byteLength xs) (xs ++ ys) = some xs := by
  induction xs with
  | nil => simp [byteLength, takeBytes?]
  | cons c cs ih =>
    rw [List.cons_append, byteLength, takeBytes?_cons, ih]
    rfl

/-- A slice between the ends of a middle part is that part. -/
theorem slice?_append (before middle after : List Char) :
    slice? (byteLength before) (byteLength before + byteLength middle) (before ++ (middle ++ after))
      = some middle := by
  rw [slice?, if_pos (Nat.le_add_right _ _), dropBytes?_append, Nat.add_sub_cancel_left]
  exact takeBytes?_append middle after

end VerilogScaffold.Text
