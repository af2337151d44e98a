import VerilogScaffold.Proofs.Bytes
import VerilogScaffold.Proofs.Line

/-!
# Where the lexer by byte stands

The lexer by byte mirrors the cut into segments. `At before cs` says that the source falls into
these two texts; the lexer stands between them, at index `byteLength before`, and each of its
readers stops after the characters of `cs` that the cut measures.

What carries the argument is that no byte of a character beyond ASCII is taken for a character of
ASCII. A test for characters of ASCII therefore comes out on the next byte as on the next character
(`At.test_eq`), and a run of bytes ends where the run of characters does (`At.eatWhile_eq`).
-/

namespace VerilogScaffold

namespace ByteLexer

open Text Segment

variable {s : ByteLexer} {before cs : List Char}

/-! ## Where the lexer stands -/

/-- The bytes from an index on, as characters with their numbers. -/
structure Ahead (s : ByteLexer) (i : Nat) (xs : List Char) : Prop where
  chars : ∃ front, s.bytes.toList.map Char.ofUInt8 = front ++ xs ∧ front.length = i

namespace Ahead

variable {i : Nat} {x : Char} {xs : List Char}

theorem tail (h : s.Ahead i (x :: xs)) : s.Ahead (i + 1) xs := by
  obtain ⟨front, hbytes, rfl⟩ := h.chars
  exact ⟨front ++ [x], by rw [hbytes, List.append_assoc, List.singleton_append], List.length_append⟩

theorem size_eq (h : s.Ahead i xs) : s.bytes.size = i + xs.length := by
  obtain ⟨front, hbytes, rfl⟩ := h.chars
  have hlength := congrArg List.length hbytes
  rwa [List.length_map, Array.length_toList, List.length_append] at hlength

theorem lt (h : s.Ahead i (x :: xs)) : i < s.bytes.size := by
  rw [h.size_eq, List.length_cons]
  omega

theorem not_lt (h : s.Ahead i []) : ¬ i < s.bytes.size := by
  rw [h.size_eq]
  exact Nat.lt_irrefl i

/-- Past the last byte stands a zero. -/
theorem char_add (h : s.Ahead i xs) (n : Nat) : s.char (i + n) = xs.getD n '\x00' := by
  obtain ⟨front, hbytes, rfl⟩ := h.chars
  have hchar : s.char (front.length + n) =
      (s.bytes.toList.map Char.ofUInt8).getD (front.length + n) '\x00' := by
    rw [char, List.getD_eq_getElem?_getD, List.getElem?_map, Array.getElem?_toList,
      Array.getD_eq_getD_getElem?]
    cases s.bytes[front.length + n]? <;> rfl
  rw [hchar, hbytes, List.getD_eq_getElem?_getD, List.getD_eq_getElem?_getD,
    List.getElem?_append_right (Nat.le_add_right _ _), Nat.add_sub_cancel_left]

theorem char (h : s.Ahead i (x :: xs)) : s.char i = x := h.char_add 0

theorem char_nil (h : s.Ahead i []) : s.char i = '\x00' := h.char_add 0

theorem eatWhile_eq (p : Char → Bool) (h : s.Ahead i xs) :
    s.eatWhile p i = i + (xs.takeWhile p).length := by
  induction xs generalizing i with
  | nil => rw [eatWhile, if_neg fun hi => h.not_lt hi.1]; rfl
  | cons x xs ih =>
    rw [eatWhile, h.char, List.takeWhile_cons]
    by_cases hx : p x = true
    · rw [if_pos ⟨h.lt, hx⟩, ih h.tail, if_pos hx, List.length_cons]
      omega
    · rw [if_neg fun hi => hx hi.2, if_neg hx]
      rfl

end Ahead

/-- The source falls into the text before the lexer and the text ahead of it. -/
def At (s : ByteLexer) (before cs : List Char) : Prop := s.bytes = (encode (before ++ cs)).toArray

namespace At

variable {c : Char} {mid after : List Char}

theorem ahead (h : s.At before cs) : s.Ahead (byteLength before) (byteChars cs) where
  chars := ⟨byteChars before, by rw [h, List.toList_toArray, encode_append, List.map_append]; rfl,
    length_byteChars before⟩

theorem append (h : s.At before (mid ++ after)) : s.At (before ++ mid) after := by
  rwa [At, List.append_assoc]

theorem next (h : s.At before (c :: cs)) : s.At (before ++ [c]) cs := by
  rwa [At, List.append_assoc, List.singleton_append]

theorem drop (h : s.At before cs) (n : Nat) : s.At (before ++ cs.take n) (cs.drop n) :=
  append (by rwa [List.take_append_drop])

theorem le_size (h : s.At before cs) : byteLength before ≤ s.bytes.size := by
  rw [h.ahead.size_eq]
  exact Nat.le_add_right _ _

theorem lt_size (h : s.At before (c :: cs)) : byteLength before < s.bytes.size := by
  have := c.utf8Size_pos
  rw [h.ahead.size_eq, length_byteChars, byteLength_cons]
  omega

theorem not_lt_size (h : s.At before []) : ¬ byteLength before < s.bytes.size := h.ahead.not_lt

/-- A text of the source can be cut out of it. -/
theorem slice?_eq (h : s.At before (mid ++ after)) :
    s.slice? (byteLength before) (byteLength (before ++ mid)) = some mid.utf8Encode := by
  have hle : byteLength before ≤ byteLength (before ++ mid) := by
    rw [byteLength_append]
    exact Nat.le_add_right _ _
  rw [slice?, if_pos ⟨hle, h.append.le_size⟩, h]
  congr 1
  apply ByteArray.ext
  rw [List.utf8Encode, List.data_toByteArray, List.extract_toArray, List.extract_eq_take_drop,
    encode_append, encode_append, byteLength_append, ← length_encode before,
    List.drop_left, Nat.add_sub_cancel_left, ← length_encode mid, List.take_left]
  rfl

end At

theorem fromUTF8?_utf8Encode (cs : List Char) :
    String.fromUTF8? cs.utf8Encode = some (String.ofList cs) := by
  have hvalid : cs.utf8Encode.IsValidUTF8 := ByteArray.isValidUTF8_utf8Encode
  rw [String.fromUTF8?, dif_pos hvalid]
  rfl

theorem size_utf8Encode (cs : List Char) : cs.utf8Encode.size = byteLength cs := by
  rw [List.utf8Encode, List.size_toByteArray]
  exact length_encode cs

/-! ## Classes of characters -/

theorem uniform_isAsciiBlank : Uniform isAsciiBlank false :=
  ((((Uniform.beq (by decide)).or (.beq (by decide))).or (.beq (by decide))).or
    (.beq (by decide))).or (.beq (by decide))

theorem uniform_isWordChar : Uniform isWordChar false :=
  (Uniform.isAlphanum.or (.beq (by decide))).or (.beq (by decide))

theorem uniform_isGap : Uniform isGap false := Uniform.or (.beq (by decide)) (.beq (by decide))

theorem uniform_isDecimal : Uniform isDecimal false := Uniform.isDigit.or (.beq (by decide))

theorem uniform_isRadix : Uniform isRadix false := Uniform.toLower (.mem (by rfl))

theorem uniform_isSignMark :
    Uniform isSignMark false := Uniform.or (.beq (by decide)) (.beq (by decide))

theorem uniform_isBaseStart : Uniform isBaseStart false := uniform_isRadix.or uniform_isSignMark

theorem uniform_isBasedDigit : Uniform isBasedDigit false :=
  ((Uniform.isDigit.or (.toLower (.mem (by rfl)))).or (.beq (by decide))).or (.beq (by decide))

theorem uniform_isExponentMark : Uniform (fun c => c == 'e' || c == 'E') false :=
  Uniform.or (.beq (by decide)) (.beq (by decide))

theorem uniform_isSign : Uniform (fun c => c == '+' || c == '-') false :=
  Uniform.or (.beq (by decide)) (.beq (by decide))

/-! ## One character and runs of them -/

namespace At

variable {c : Char} {p : Char → Bool} {v : Bool}

theorem char (h : s.At before (c :: cs)) (hc : c.toNat < 128) : s.char (byteLength before) = c := by
  have hahead := h.ahead
  rw [byteChars_cons, byteChars_of_lt hc] at hahead
  exact hahead.char

/-- A character beyond ASCII is seen as its first byte. -/
theorem le_char (h : s.At before (c :: cs)) (hc : 128 ≤ c.toNat) :
    192 ≤ (s.char (byteLength before)).toNat := by
  obtain ⟨x, xs, hbytes, hx, -⟩ := byteChars_of_le hc
  have hahead := h.ahead
  rw [byteChars_cons, hbytes] at hahead
  rwa [hahead.char]

/-- A test for a character of ASCII comes out on the next byte as on the next character. -/
theorem test_eq (h : s.At before cs) (hp : Uniform p false) (hzero : p '\x00' = false) :
    p (s.char (byteLength before)) = startsWith p cs := by
  rcases cs with _ | ⟨c, cs⟩
  · rw [h.ahead.char_nil, hzero]
    rfl
  · by_cases hc : c.toNat < 128
    · rw [h.char hc]
      rfl
    · have hc := Nat.not_lt.1 hc
      have hx := h.le_char hc
      rw [hp _ (by omega)]
      exact (hp c hc).symm

theorem char_eq_iff (h : s.At before cs) {d : Char} (hd : d.toNat < 128) (hzero : d ≠ '\x00') :
    s.char (byteLength before) = d ↔ startsWith (· == d) cs = true := by
  rw [← h.test_eq (.beq hd) (beq_eq_false_iff_ne.2 hzero.symm), beq_iff_eq]

theorem eatWhile_eq (h : s.At before cs) (hp : Uniform p v) :
    s.eatWhile p (byteLength before) = byteLength (before ++ cs.take (run p cs)) := by
  rw [h.ahead.eatWhile_eq, length_takeWhile_byteChars hp, take_run, byteLength_append]

/-- A run that the next character is part of. -/
theorem eatWhile_cons (h : s.At before (c :: cs)) (hp : Uniform p v) (hc : p c = true) :
    s.eatWhile p (byteLength before) = byteLength (before ++ c :: cs.take (run p cs)) := by
  have hrun := h.eatWhile_eq hp
  rwa [take_run, List.takeWhile_cons_of_pos hc, ← take_run] at hrun

/-- A run behind the next character. -/
theorem eatWhile_next (h : s.At before (c :: cs)) (hp : Uniform p v) (hc : c.toNat < 128) :
    s.eatWhile p (byteLength before + 1) = byteLength (before ++ c :: cs.take (run p cs)) := by
  have hrun := h.next.eatWhile_eq hp
  rwa [byteLength_concat_of_lt _ hc, List.append_assoc] at hrun

/-- An optional mark of ASCII at the start of a text is one byte. -/
theorem optional_eq (h : s.At before cs) (hp : Uniform p false) (hzero : p '\x00' = false) :
    (if p (s.char (byteLength before)) then byteLength before + 1 else byteLength before) =
      byteLength (before ++ cs.take (if startsWith p cs then 1 else 0)) := by
  rw [h.test_eq hp hzero]
  split
  · rename_i hstarts
    rcases cs with _ | ⟨c, cs⟩
    · cases hstarts
    · exact (byteLength_concat_of_lt _ (hp.lt_of_eq_true hstarts)).symm
  · rw [List.take_zero, List.append_nil]

/-- The bytes of one character, and those of the text after it. -/
theorem ahead_cons (h : s.At before (c :: cs)) :
    s.Ahead (byteLength before) (byteChars [c] ++ byteChars cs) :=
  byteChars_append [c] cs ▸ h.ahead

theorem index_next (before : List Char) (c : Char) :
    byteLength before + (byteChars [c]).length = byteLength (before ++ [c]) := by
  rw [length_byteChars, byteLength_append]

end At

end ByteLexer

end VerilogScaffold
