import VerilogScaffold.Text.Blank

/-!
# Runs of blank lines

A placeholder that stands for nothing leaves its line empty, and several of them leave a gap. This
module closes such gaps: a run of blanks never holds more than one blank line afterwards. What
stands on the line before a gap and the indentation of the line after it stay.
-/

namespace VerilogScaffold.Text

/-- A run of blanks with at most one blank line: from its first newline to its last, three or more
newlines become two. -/
def closeGap (run : List Char) : List Char :=
  if 3 ≤ run.count '\n' then
    run.takeWhile (· != '\n') ++ '\n' :: '\n' :: (run.reverse.takeWhile (· != '\n')).reverse
  else run

/-- Closes the gaps in a text. -/
def collapseBlankLines : List Char → List Char
  | [] => []
  | c :: cs =>
    if isBlank c then
      closeGap (c :: cs.takeWhile isBlank) ++ collapseBlankLines (cs.dropWhile isBlank)
    else c :: collapseBlankLines cs
termination_by cs => cs.length
decreasing_by
  · have := (List.dropWhile_sublist isBlank (l := cs)).length_le
    simp only [List.length_cons]
    omega
  · simp

end VerilogScaffold.Text
