import Mathlib.Data.List.Induction
import Mathlib.Data.List.TakeWhile
import VerilogScaffold.Proofs.Bytes
import VerilogScaffold.Proofs.Place

/-!
# Positions are counted

The position of an offset is looked up in an index of line starts. It could as well be counted: the
newline bytes before the offset give the line, and the bytes behind the last of them give the column
(`counted`). `position?_counted` says that the lookup finds what a count finds, that offset and
position determine each other and stand in one order, and that no location ends before it starts.

The index is made from characters, whose bytes are newlines where the characters are
(`lineStartsFrom_eq_newlineEnds`). Up to an offset it is therefore the index of the bytes up to
there (`takeWhile_lineStarts`), and its length and last entry can be counted.
-/

namespace VerilogScaffold

/-- One position comes before another: it is on an earlier line, or further to the left on the same
one. -/
def Position.Before (p q : Position) :
    Prop := p.line < q.line ∨ p.line = q.line ∧ p.column < q.column

instance (p q : Position) : Decidable (p.Before q) := inferInstanceAs (Decidable (_ ∨ _))

namespace SourceFile

/-- The byte that ends a line. -/
def newline : UInt8 := 0x0A

/-- The bytes of a text in front of an offset, which are all of them where it lies past the end. -/
def bytesBefore (content : String) (offset : Nat) :
    List UInt8 := content.toUTF8.data.toList.take offset

/-- The offset behind the last newline among some bytes, or zero if there is none. -/
def lastLineStart (bytes : List UInt8) : Nat := (bytes.reverse.dropWhile (· != newline)).length

/-- The position of an offset by a count of the bytes in front of it. -/
def counted (content : String) (offset : Nat) : Position :=
  ⟨1 + (bytesBefore content offset).count newline,
    1 + (offset - lastLineStart (bytesBefore content offset))⟩

/-- The offsets behind each newline among some bytes, the first of which stands at `start`. -/
def newlineEnds (start : Nat) : List UInt8 → List Nat
  | [] => []
  | b :: bytes =>
    if b = newline then (start + 1) :: newlineEnds (start + 1) bytes
      else newlineEnds (start + 1) bytes

/-! ## Newlines among bytes -/

variable {content : String} {offset start n : Nat} {bytes : List UInt8}

theorem newlineEnds_append (start : Nat) (xs ys : List UInt8) :
    newlineEnds start (xs ++ ys) = newlineEnds start xs ++ newlineEnds (start + xs.length) ys := by
  induction xs generalizing start with
  | nil => rfl
  | cons b xs ih =>
    have hlength : start + 1 + xs.length = start + (b :: xs).length := by
      rw [List.length_cons]
      omega
    rw [List.cons_append, newlineEnds, newlineEnds, ih, hlength]
    split
    · rfl
    · rfl

theorem lt_of_mem_newlineEnds (h : n ∈ newlineEnds start bytes) : start < n := by
  induction bytes generalizing start with
  | nil => cases h
  | cons b bytes ih =>
    unfold newlineEnds at h
    split at h
    · rcases List.mem_cons.1 h with rfl | h
      · omega
      · have := ih h
        omega
    · have := ih h
      omega

theorem le_of_mem_newlineEnds (h : n ∈ newlineEnds start bytes) : n ≤ start + bytes.length := by
  induction bytes generalizing start with
  | nil => cases h
  | cons b bytes ih =>
    unfold newlineEnds at h
    rw [List.length_cons]
    split at h
    · rcases List.mem_cons.1 h with rfl | h
      · omega
      · have := ih h
        omega
    · have := ih h
      omega

theorem newlineEnds_eq_nil (h : newline ∉ bytes) : newlineEnds start bytes = [] := by
  induction bytes generalizing start with
  | nil => rfl
  | cons b bytes ih =>
    have hb : b ≠ newline := fun hb => h (hb ▸ List.mem_cons_self ..)
    rw [newlineEnds, if_neg hb, ih fun hbytes => h (List.mem_cons_of_mem _ hbytes)]

@[simp] theorem length_newlineEnds : (newlineEnds start bytes).length = bytes.count newline := by
  induction bytes generalizing start with
  | nil => rfl
  | cons b bytes ih =>
    unfold newlineEnds
    split
    · next hb => rw [hb, List.count_cons_self, List.length_cons, ih]
    · next hb => rw [List.count_cons_of_ne hb, ih]

/-- Up to an offset, the newlines among some bytes are those among the bytes up to there. -/
theorem takeWhile_newlineEnds (start count : Nat) (bytes : List UInt8) :
    (newlineEnds start bytes).takeWhile (· ≤ start + count) = newlineEnds start
    (bytes.take count) := by
  induction bytes generalizing start count with
  | nil => rw [List.take_nil]; rfl
  | cons b bytes ih =>
    rcases count with _ | count
    · -- no newline ends where the bytes start
      show (newlineEnds start (b :: bytes)).takeWhile (· ≤ start) = []
      rcases hends : newlineEnds start (b :: bytes) with _ | ⟨n, ends⟩
      · rfl
      · have hlt : start < n := lt_of_mem_newlineEnds (hends ▸ List.mem_cons_self ..)
        exact List.takeWhile_cons_of_neg (by simpa using hlt)
    · have hrest := ih (start + 1) count
      rw [show start + 1 + count = start + (count + 1) by omega] at hrest
      rw [List.take_succ_cons, newlineEnds, newlineEnds]
      split
      · rw [List.takeWhile_cons_of_pos (by simp), hrest]
      · exact hrest

/-- The last newline is where a look back from the end finds it. -/
theorem getLastD_newlineEnds (bytes : List UInt8) :
    (newlineEnds 0 bytes).getLastD 0 = lastLineStart bytes := by
  induction bytes using List.reverseRecOn with
  | nil => rfl
  | append_singleton bytes b ih =>
    rw [newlineEnds_append, lastLineStart, List.reverse_append, List.reverse_singleton,
      List.singleton_append]
    by_cases hb : b = newline
    · rw [hb, List.dropWhile_cons_of_neg (by simp)]
      simp [newlineEnds]
    · rw [List.dropWhile_cons_of_pos (by simpa using hb), newlineEnds, if_neg hb, newlineEnds,
        List.append_nil]
      exact ih

/-! ## The index -/

theorem newlineEnds_utf8EncodeChar (start : Nat) (c : Char) :
    newlineEnds start (String.utf8EncodeChar c) =
    if c = '\n' then [start + c.utf8Size] else [] := by
  split
  · next hc => subst hc; rfl
  · next hc =>
    apply newlineEnds_eq_nil
    intro hmem
    have hchar : '\n' ∈ Text.byteChars [c] := List.mem_map.2 ⟨newline, by simpa using hmem, rfl⟩
    by_cases hascii : c.toNat < 128
    · rw [Text.byteChars_of_lt hascii] at hchar
      exact hc (List.mem_singleton.1 hchar).symm
    · exact absurd (Text.le_of_mem_byteChars (Nat.not_lt.1 hascii) hchar) (by decide)

/-- The newlines of a text are the newlines among its bytes. -/
theorem lineStartsFrom_eq_newlineEnds (start : Nat) (cs : List Char) :
    lineStartsFrom start cs = newlineEnds start (Text.encode cs) := by
  induction cs generalizing start with
  | nil => rfl
  | cons c cs ih =>
    rw [lineStartsFrom, Text.encode_cons, newlineEnds_append, newlineEnds_utf8EncodeChar,
      String.length_utf8EncodeChar, ih]
    split
    · rfl
    · rfl

theorem toList_data_toUTF8 (content : String) :
    content.toUTF8.data.toList = Text.encode content.toList := by
  have hutf8 : content.toUTF8 = content.toList.utf8Encode := String.utf8Encode_toList.symm
  rw [hutf8, List.utf8Encode, List.data_toByteArray]
  rfl

theorem lineStarts_eq (content : String) :
    lineStarts content = 0 :: newlineEnds 0 content.toUTF8.data.toList := by
  rw [lineStarts, lineStartsFrom_eq_newlineEnds, toList_data_toUTF8]

/-- The lines that start at or before an offset. -/
theorem takeWhile_lineStarts (content : String) (offset : Nat) :
    (lineStarts content).takeWhile (· ≤ offset) = 0 :: newlineEnds 0
    (bytesBefore content offset) := by
  have htake := takeWhile_newlineEnds 0 offset content.toUTF8.data.toList
  rw [Nat.zero_add] at htake
  rw [lineStarts_eq, List.takeWhile_cons_of_pos (by simp), htake, bytesBefore]

theorem position_eq_counted (f : SourceFile) (offset : Nat) :
    f.position offset = counted f.content offset := by
  rw [position, takeWhile_lineStarts, List.length_cons, length_newlineEnds, List.getLastD_cons,
    getLastD_newlineEnds, counted, Nat.add_comm 1, Nat.add_comm 1]

/-! ## Order -/

/-- The line of an offset starts as far before it as its column says. -/
theorem exists_lineStart (f : SourceFile) (offset : Nat) : ∃ start,
    (lineStarts f.content)[(f.position offset).line - 1]? = some start ∧
      start + ((f.position offset).column - 1) = offset := by
  have hfirst := takeWhile_lineStarts f.content offset
  have hprefix : (lineStarts f.content).takeWhile (· ≤ offset) <+: lineStarts f.content :=
    List.takeWhile_prefix _
  have hle : ∀ n ∈ (lineStarts f.content).takeWhile (· ≤ offset), n ≤ offset := by
    intro n hn
    simpa using List.mem_takeWhile_imp hn
  unfold position
  generalize (lineStarts f.content).takeWhile (· ≤ offset) = before at hfirst hprefix hle
  obtain ⟨init, last, rfl⟩ : ∃ init last, before = init ++ [last] := by
    rcases List.eq_nil_or_concat before with rfl | ⟨init, last, rfl⟩
    · cases hfirst
    · exact ⟨init, last, List.concat_eq_append⟩
  obtain ⟨after, hafter⟩ := hprefix
  have hlast : last ≤ offset := hle last (by simp)
  refine ⟨last, ?_, ?_⟩
  · rw [← hafter]
    simp
  · simp only [List.getLastD_concat]
    omega

/-- The lines that start at or before an offset are the first of those that start at or before a
later one. -/
theorem takeWhile_le_prefix {a b : Nat} (h : a ≤ b) (starts : List Nat) :
    starts.takeWhile (· ≤ a) <+: starts.takeWhile (· ≤ b) := by
  induction starts with
  | nil => exact List.nil_prefix
  | cons n starts ih =>
    by_cases hn : n ≤ a
    · have hnb : n ≤ b := Nat.le_trans hn h
      rw [List.takeWhile_cons_of_pos (by simpa using hn),
        List.takeWhile_cons_of_pos (by simpa using hnb)]
      exact List.cons_prefix_cons.2 ⟨rfl, ih⟩
    · rw [List.takeWhile_cons_of_neg (by simpa using hn)]
      exact List.nil_prefix

theorem position_before (f : SourceFile) {a b : Nat} (h : a < b) :
    (f.position a).Before (f.position b) := by
  have hprefix := takeWhile_le_prefix (Nat.le_of_lt h) (lineStarts f.content)
  obtain ⟨start, hstart, hoffset⟩ := f.exists_lineStart a
  obtain ⟨start', hstart', hoffset'⟩ := f.exists_lineStart b
  rcases Nat.lt_or_eq_of_le hprefix.length_le with hlt | heq
  · exact .inl hlt
  · -- the offsets share a line, and so its start
    have hline : (f.position a).line = (f.position b).line := heq
    rw [hline, hstart'] at hstart
    have hcolumn : 1 ≤ (f.position a).column := Nat.le_add_left ..
    refine .inr ⟨hline, ?_⟩
    obtain rfl := Option.some.inj hstart
    omega

theorem not_position_before (f : SourceFile) {a b : Nat} (h : a ≤ b) :
    ¬ (f.position b).Before (f.position a) := by
  intro hbefore
  rcases Nat.lt_or_eq_of_le h with hlt | rfl
  · have := f.position_before hlt
    unfold Position.Before at *
    omega
  · unfold Position.Before at hbefore
    omega

/-! ## Bounds -/

theorem le_of_mem_lineStarts (h : n ∈ lineStarts content) : n ≤ content.utf8ByteSize := by
  rw [lineStarts_eq] at h
  rcases List.mem_cons.1 h with rfl | h
  · exact Nat.zero_le _
  · have hle := le_of_mem_newlineEnds h
    rw [Nat.zero_add] at hle
    exact hle

theorem counted_le (content : String) (offset : Nat) :
    (counted content offset).line ≤ offset + 1 ∧ (counted content offset).column ≤ offset + 1 := by
  have hcount : (bytesBefore content offset).count newline ≤ (bytesBefore content offset).length :=
    List.count_le_length
  have hlength : (bytesBefore content offset).length ≤ offset := List.length_take_le ..
  unfold counted
  constructor
  · show 1 + _ ≤ _
    omega
  · show 1 + _ ≤ _
    omega

/-- The lookup of a position finds what a count of the bytes before the offset finds, and its line
starts as far before the offset as its column says. Later offsets have later positions, so that no
location ends before it starts. All this stays within words of 32 bits where the offset and the text
do. -/
theorem position?_counted (f : SourceFile) :
    (∀ offset, f.position? offset = some (counted f.content offset) ∧
      ∃ start, (lineStarts f.content)[(counted f.content offset).line - 1]? = some start ∧
        start + ((counted f.content offset).column - 1) = offset) ∧
    (∀ a b, a < b → (counted f.content a).Before (counted f.content b)) ∧
    (∀ span : Span, ∃ l, f.locate? span = some l ∧ l.first = counted f.content span.start.toNat ∧
      l.last = counted f.content (max (span.stop.toNat - 1) span.start.toNat) ∧
      ¬ l.last.Before l.first) ∧
    (f.content.utf8ByteSize < UInt32.size → (∀ start ∈ lineStarts f.content, start < UInt32.size) ∧
      ∀ offset < UInt32.size - 1,
        (counted f.content offset).line < UInt32.size ∧
          (counted f.content offset).column < UInt32.size) := by
  simp only [← position_eq_counted]
  refine ⟨fun offset => ⟨f.position?_eq offset, f.exists_lineStart offset⟩, 
    fun a b => f.position_before,
    fun span => ⟨f.locate span, f.locate?_eq span, rfl, rfl, ?_⟩, fun hsize =>
      ⟨fun start hstart => ?_, fun offset hoffset => ?_⟩⟩
  · exact f.not_position_before (Nat.le_max_right ..)
  · exact Nat.lt_of_le_of_lt (le_of_mem_lineStarts hstart) hsize
  · have hle := counted_le f.content offset
    rw [position_eq_counted]
    omega

/-- The offsets run through the middle of a character, a carriage return and a newline, and on past
the end. -/
theorem position?_counted_past_end :
    (SourceFile.mk ⟨"t.v"⟩ "é\r\nx").position? 1 = some ⟨1, 2⟩ ∧
      (SourceFile.mk ⟨"t.v"⟩ "é\r\nx").position? 9 = some ⟨2, 6⟩ ∧
      (1 < 9 ∧ (⟨1, 2⟩ : Position).Before ⟨2, 6⟩) ∧
      ("é\r\nx".utf8ByteSize < UInt32.size ∧ ∀ start ∈ lineStarts "é\r\nx", start < UInt32.size) ∧
      (9 < UInt32.size - 1 ∧ (counted "é\r\nx" 9).line < UInt32.size ∧
        (counted "é\r\nx" 9).column < UInt32.size) := by
  obtain ⟨hlookup, horder, -, hwords⟩ := position?_counted ⟨⟨"t.v"⟩, "é\r\nx"⟩
  have hinside : counted "é\r\nx" 1 = ⟨1, 2⟩ := by decide
  have hpast : counted "é\r\nx" 9 = ⟨2, 6⟩ := by decide
  have hbefore := horder 1 9 (by decide)
  obtain ⟨hstarts, hoffsets⟩ := hwords (by decide)
  rw [hinside, hpast] at hbefore
  refine ⟨?_, ?_, ⟨by decide, hbefore⟩, ⟨by decide, hstarts⟩, by decide, hoffsets 9 (by decide)⟩
  · rw [(hlookup 1).1, hinside]
  · rw [(hlookup 9).1, hpast]

end SourceFile

end VerilogScaffold
