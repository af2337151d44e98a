import Mathlib.Data.List.DropRight
import Mathlib.Data.List.TakeWhile
import VerilogScaffold.Proofs.LineIndex

/-!
# The line shown is the line numbered

A report names the line of an offset by its number and shows its text. The number is looked up in
the index of line starts; the text is cut out of the content around the offset, without the index.
`lineText?_piece` says that both mean one piece of the content, split at its newlines.

An offset cuts the content in two, at the boundary of the character that it falls in. The newlines
in front of the cut number the line (`line_position`), and they number the piece that lies across it
(`getElem?_splitOn_append`).
-/

namespace VerilogScaffold

/-! ## Pieces of a text -/

namespace Text

/-- A text has one piece more than it has separators. -/
theorem length_splitOn (separator : Char) (cs : List Char) :
    (cs.splitOn separator).length = cs.count separator + 1 := by
  induction cs with
  | nil => rfl
  | cons c cs ih =>
    rw [List.splitOn_cons_eq_if_modifyHead]
    by_cases hc : c = separator
    · rw [hc, if_pos BEq.rfl, List.length_cons, ih, List.count_cons_self]
    · rw [if_neg (by simpa using hc), List.length_modifyHead, ih, List.count_cons_of_ne hc]

/-- The first piece of a text reaches up to the first separator. -/
theorem head?_splitOn (separator : Char) (cs : List Char) :
    (cs.splitOn separator).head? = some (cs.takeWhile (· != separator)) := by
  induction cs with
  | nil => rfl
  | cons c cs ih =>
    rw [List.splitOn_cons_eq_if_modifyHead]
    by_cases hc : c = separator
    · rw [if_pos (by simpa using hc), List.takeWhile_cons_of_neg (by simpa using hc)]
      rfl
    · rw [if_neg (by simpa using hc), List.takeWhile_cons_of_pos (by simpa using hc),
        List.head?_modifyHead, ih]
      rfl

/-- The piece that lies across a cut has as many pieces in front of it as there are separators
before the cut. -/
theorem getElem?_splitOn_append (separator : Char) (front behind : List Char) :
    ((front ++ behind).splitOn separator)[front.count separator]? =
      some (front.rtakeWhile (· != separator) ++ behind.takeWhile (· != separator)) := by
  have hfront := List.rdropWhile_append_rtakeWhile (p := (· != separator)) (l := front)
  have hlast := List.rdropWhile_last_not (· != separator) front
  have hleft : ∀ c ∈ front.rtakeWhile (· != separator), (c != separator) = true := by
    intro c hc
    exact List.mem_rtakeWhile_imp (p := (· != separator)) hc
  generalize front.rdropWhile (· != separator) = above at hfront hlast
  generalize front.rtakeWhile (· != separator) = left at hfront hleft
  have hnone : left.count separator = 0 := by
    apply List.count_eq_zero.2
    intro hmem
    simpa using hleft separator hmem
  have hpiece : ((left ++ behind).splitOn separator)[0]? =
      some (left ++ behind.takeWhile (· != separator)) := by
    rw [← List.head?_eq_getElem?, head?_splitOn, List.takeWhile_append_of_pos hleft]
  subst hfront
  rcases List.eq_nil_or_concat' above with rfl | ⟨above, last, rfl⟩
  · rw [List.nil_append, hnone, hpiece]
  · -- the part above the piece ends in a separator, and has all the pieces in front
    have hseparator : last = separator := by simpa using hlast (by simp)
    have hcount : (above ++ [separator] ++ left).count separator =
        (above.splitOn separator).length := by
      rw [List.count_append, List.count_append, hnone, length_splitOn,
        List.count_singleton_self, Nat.add_zero]
    have hsplit : above ++ [separator] ++ left ++ behind = above ++ separator ::
        (left ++ behind) := by simp
    rw [hseparator, hcount, hsplit, List.splitOn_append_cons_self,
      List.getElem?_append_right (Nat.le_refl _),
      Nat.sub_self, hpiece]

end Text

/-! ## Lines -/

namespace SourceFile

/-- Up to an offset, lines start behind the newlines among the characters that end there or
before. -/
theorem length_takeWhile_lineStartsFrom (start offset : Nat) (cs : List Char) :
    ((lineStartsFrom start cs).takeWhile (· ≤ start + offset)).length =
      (Text.charsBefore offset cs).count '\n' := by
  induction cs generalizing start offset with
  | nil => rfl
  | cons c cs ih =>
    unfold lineStartsFrom Text.charsBefore
    by_cases hfits : c.utf8Size ≤ offset
    · have hrest := ih (start + c.utf8Size) (offset - c.utf8Size)
      have hsum : start + c.utf8Size + (offset - c.utf8Size) = start + offset := by omega
      rw [hsum] at hrest
      rw [if_pos hfits]
      by_cases hc : c = '\n'
      · rw [if_pos hc, List.takeWhile_cons_of_pos (by simp only [decide_eq_true_eq]; omega),
          List.length_cons, hrest, hc, List.count_cons_self]
      · rw [if_neg hc, hrest, List.count_cons_of_ne hc]
    · -- the offset falls inside the character, so that every later line starts behind it
      have hbehind : ∀ n ∈ lineStartsFrom (start + c.utf8Size) cs, start + offset < n := by
        intro n hn
        have := lt_of_mem_lineStartsFrom hn
        omega
      have hnone : (lineStartsFrom (start + c.utf8Size) cs).takeWhile
          (· ≤ start + offset) = [] := by
        apply List.eq_nil_iff_forall_not_mem.2
        intro n hn
        have hlt := hbehind n ((List.takeWhile_subset _) hn)
        have hle := List.mem_takeWhile_imp hn
        simp only [decide_eq_true_eq] at hle
        omega
      rw [if_neg hfits]
      split
      · rw [List.takeWhile_cons_of_neg (by simp only [decide_eq_true_eq]; omega)]
        rfl
      · rw [hnone]
        rfl

/-- The newlines in front of an offset number its line. -/
theorem line_position (f : SourceFile) (offset : Nat) :
    (f.position offset).line = (Text.charsBefore offset f.content.toList).count '\n' + 1 := by
  have hstarts := length_takeWhile_lineStartsFrom 0 offset f.content.toList
  rw [Nat.zero_add] at hstarts
  show ((lineStarts f.content).takeWhile (· ≤ offset)).length = _
  rw [lineStarts, List.takeWhile_cons_of_pos (by simp), List.length_cons, hstarts]

/-- **The line shown is the line numbered.** Both lookups succeed at every offset, also inside a
character and past the end. The text is the piece with the number of the line, among the pieces of
the content split at its newlines, without the carriage returns at its end. On a content and an
offset below the greatest word of 32 bits, the index of line starts, the line and the column are
words of 32 bits. -/
theorem lineText?_piece (f : SourceFile) (offset : Nat) :
    ∃ place piece, f.position? offset = some place ∧ 1 ≤ place.line ∧
      (f.content.toList.splitOn '\n')[place.line - 1]? = some piece ∧
      f.lineText? offset = some (String.ofList (piece.rdropWhile (· == '\r'))) ∧
      (f.content.utf8ByteSize < UInt32.size → offset < UInt32.size - 1 →
        (∀ start ∈ lineStarts f.content, start < UInt32.size) ∧
          place.line < UInt32.size ∧ place.column < UInt32.size) := by
  obtain ⟨behind, hcontent⟩ := Text.charsBefore_prefix offset f.content.toList
  have hline := f.line_position offset
  have htext : f.lineText offset =
      trimmedLine ((Text.charsBefore offset f.content.toList).rtakeWhile (· != '\n') ++
        (f.content.toList.drop (Text.charsBefore offset f.content.toList).length).takeWhile
          (· != '\n')) := rfl
  generalize Text.charsBefore offset f.content.toList = front at hcontent hline htext
  rw [← hcontent, List.drop_left] at htext
  refine ⟨f.position offset, front.rtakeWhile (· != '\n') ++ behind.takeWhile (· != '\n'),
    f.position?_eq offset, ?_, ?_, ?_, fun hsize hoffset => ⟨fun start hstart => ?_, ?_⟩⟩
  · omega
  · rw [hline, Nat.add_sub_cancel, ← hcontent]
    exact Text.getElem?_splitOn_append '\n' front behind
  · rw [f.lineText?_eq, htext]
    rfl
  · exact Nat.lt_of_le_of_lt (le_of_mem_lineStarts hstart) hsize
  · have hle := counted_le f.content offset
    rw [position_eq_counted]
    omega

/-- The offset falls inside the character of two bytes. -/
theorem lineText?_piece_inside :
    (SourceFile.mk ⟨"t.v"⟩ "é\r\nx").position? 1 = some ⟨1, 2⟩ ∧
      (SourceFile.mk ⟨"t.v"⟩ "é\r\nx").lineText? 1 = some "é" ∧
      "é\r\nx".utf8ByteSize < UInt32.size ∧ 1 < UInt32.size - 1 ∧
      ∀ start ∈ lineStarts "é\r\nx", start < UInt32.size := by
  obtain ⟨place, piece, hplace, -, hpiece, htext, hwords⟩ :=
    lineText?_piece ⟨⟨"t.v"⟩, "é\r\nx"⟩ 1
  have hposition : (SourceFile.mk ⟨"t.v"⟩ "é\r\nx").position 1 = ⟨1, 2⟩ := by decide
  rw [position?_eq, hposition] at hplace
  obtain rfl := Option.some.inj hplace
  have hsplit : ("é\r\nx".toList.splitOn '\n')[0]? = some "é\r".toList := by decide
  obtain rfl := Option.some.inj (hsplit.symm.trans hpiece)
  refine ⟨by rw [position?_eq, hposition], htext, by decide, by decide, ?_⟩
  exact (hwords (by decide) (by decide)).1

end SourceFile

end VerilogScaffold
