import Mathlib.Data.List.DropRight
import VerilogScaffold.Proofs.CommentReading
import VerilogScaffold.Proofs.Joining
import VerilogScaffold.Proofs.Tiling

/-!
# Where a line directive ends

A line directive covers a logical line: the physical line it stands on, and the next one as long as
a backslash stands last on the line before it. Whether a newline continues the line is a rule on the
text in front of the newline, and a rule settles how much of a text its line takes (`exists_isLine`,
`IsLine.exists_append`).

The lexer's rule looks at all the text in front of the newline, not at the last physical line alone.
The two rules agree up to a line that is blank: there the lexer still sees the backslash of the line
before. So a directive covers its logical line or more, and more just where the logical line ends in
a blank line with other lines behind it (`Lexing.ofSource?_lineDirective`).
-/

namespace VerilogScaffold

open Text Segment

/-- The physical line that a text ends in: what stands behind its last newline. -/
def lastLine (cs : List Char) : List Char := cs.rtakeWhile (· != '\n')

/-- A text that is one line by a rule that says of a text whether a newline behind it continues the
line. What stands behind is another line, or nothing. -/
structure IsLine (continues : List Char → Bool) (behind line : List Char) : Prop where
  continued : ∀ front back, line = front ++ '\n' :: back → continues front = true
  stops : behind = [] ∨ behind.head? = some '\n' ∧ continues line = false

/-- A logical line of a source: a newline continues it if the physical line in front of the newline,
without the blanks at its end, ends in a backslash. -/
def IsLogicalLine (before behind line : List Char) : Prop :=
  IsLine (fun front => endsInBackslash (lastLine (before ++ front))) behind line

/-- A logical line that ends in a blank physical line, with other lines behind it. -/
def EndsBlank (before behind line : List Char) : Prop :=
  behind ≠ [] ∧ ∀ c ∈ lastLine (before ++ line), isAsciiBlank c = true

/-- A compiler directive that covers a line. -/
def Segment.IsLineDirective (s : Segment) : Prop :=
  s.kind = .directive ∧
    directives.lookup (String.ofList ((s.text.drop 1).takeWhile isWordChar)) = some .line

instance (s : Segment) : Decidable s.IsLineDirective := inferInstanceAs (Decidable (_ ∧ _))

variable {before behind line : List Char}

/-! ## Rules and their lines -/

/-- Every text starts with one line. -/
theorem exists_isLine (continues : List Char → Bool) (cs : List Char) :
    ∃ line behind, cs = line ++ behind ∧ IsLine continues behind line := by
  induction cs generalizing continues with
  | nil => exact ⟨[], [], rfl, by simp, .inl rfl⟩
  | cons c cs ih =>
    by_cases hc : c = '\n' ∧ continues [] = false
    · obtain ⟨rfl, hstops⟩ := hc
      exact ⟨[], '\n' :: cs, rfl, by simp, .inr ⟨rfl, hstops⟩⟩
    · obtain ⟨line, behind, rfl, hline⟩ := ih fun front => continues (c :: front)
      refine ⟨c :: line, behind, rfl, fun front back hcut => ?_, hline.stops⟩
      rcases front with _ | ⟨d, front⟩
      · obtain ⟨rfl, -⟩ := List.cons.inj hcut
        simpa using hc
      · obtain ⟨rfl, hrest⟩ := List.cons.inj hcut
        exact hline.continued front back hrest

namespace IsLine

variable {strict loose : List Char → Bool} {line' behind' : List Char}

/-- A rule that continues more lines makes longer ones. -/
theorem exists_append (h : IsLine strict behind line) (h' : IsLine loose behind' line')
    (hle : ∀ front, strict front = true → loose front = true)
    (hcut : line ++ behind = line' ++ behind') :
    ∃ more, line' = line ++ more ∧ behind = more ++ behind' := by
  rcases List.append_eq_append_iff.1 hcut with ⟨more, hline, hbehind⟩ | ⟨more, hline, hbehind⟩
  · exact ⟨more, hline, hbehind⟩
  · -- the longer line of the stricter rule goes on over the newline that ends the other
    rcases more with _ | ⟨c, more⟩
    · exact ⟨[], by simpa using hline.symm, by simpa using hbehind.symm⟩
    · rcases h'.stops with hnil | ⟨hhead, hstops⟩
      · rw [hnil] at hbehind
        cases hbehind
      · rw [hbehind] at hhead
        obtain rfl := Option.some.inj hhead
        rw [hle _ (h.continued line' more hline)] at hstops
        cases hstops

/-- A rule has one line at the start of a text. -/
theorem unique (h : IsLine strict behind line) (h' : IsLine strict behind' line')
    (hcut : line ++ behind = line' ++ behind') : line = line' := by
  obtain ⟨more, hline, -⟩ := h.exists_append h' (fun _ => id) hcut
  obtain ⟨more', hline', -⟩ := h'.exists_append h (fun _ => id) hcut.symm
  have hmore : more = [] := by
    rw [hline, List.append_assoc, List.self_eq_append_right] at hline'
    exact (List.append_eq_nil_iff.1 hline').1
  rw [hline, hmore, List.append_nil]

end IsLine

/-! ## The backslash at the end of a text -/

theorem continuedAfter_of_blank (continued : Bool) {cs : List Char}
    (h : ∀ c ∈ cs, isAsciiBlank c = true) : continuedAfter continued cs = continued := by
  induction cs with
  | nil => rfl
  | cons c cs ih =>
    obtain ⟨hc, hcs⟩ := List.forall_mem_cons.1 h
    rw [continuedAfter, if_pos hc, ih hcs]

theorem continuedAfter_of_not_blank {cs : List Char} (h : ∃ c ∈ cs, isAsciiBlank c = false)
    (a b : Bool) : continuedAfter a cs = continuedAfter b cs := by
  induction cs generalizing a b with
  | nil => simp at h
  | cons c cs ih =>
    rw [continuedAfter, continuedAfter]
    by_cases hc : isAsciiBlank c = true
    · rw [if_pos hc, if_pos hc]
      refine ih ?_ a b
      obtain ⟨d, hd, hblank⟩ := h
      rcases List.mem_cons.1 hd with rfl | hd
      · rw [hc] at hblank
        cases hblank
      · exact ⟨d, hd, hblank⟩
    · rw [if_neg hc, if_neg hc]

/-- Blanks at the end of a text hide no backslash. -/
theorem endsInBackslash_append_of_blank (cs : List Char) {blanks : List Char}
    (h : ∀ c ∈ blanks, isAsciiBlank c = true) :
    endsInBackslash (cs ++ blanks) = endsInBackslash cs := by
  rw [endsInBackslash_append_eq, continuedAfter_of_blank _ h]

/-- What stands in front of a text that is not blank has no say in how it ends. -/
theorem endsInBackslash_append_of_not_blank (before : List Char) {cs : List Char}
    (h : ∃ c ∈ cs, isAsciiBlank c = false) :
    endsInBackslash (before ++ cs) = endsInBackslash cs := by
  have hcs : endsInBackslash cs = continuedAfter false cs := endsInBackslash_append_eq [] cs
  rw [endsInBackslash_append_eq, hcs]
  exact continuedAfter_of_not_blank h _ _

/-! ## Physical lines -/

/-- A text of one line, or of a newline and a line behind other text. -/
theorem lastLine_cases (cs : List Char) :
    lastLine cs = cs ∨ ∃ front, cs = front ++ '\n' :: lastLine cs := by
  have hcut : cs = cs.rdropWhile (· != '\n') ++ lastLine cs :=
    List.rdropWhile_append_rtakeWhile.symm
  by_cases hnil : cs.rdropWhile (· != '\n') = []
  · rw [hnil, List.nil_append] at hcut
    exact .inl hcut.symm
  · have hlast : (cs.rdropWhile (· != '\n')).getLast hnil = '\n' := by
      simpa using List.rdropWhile_last_not (· != '\n') cs hnil
    have hfront := (List.dropLast_concat_getLast hnil).symm
    rw [hlast] at hfront
    refine .inr ⟨(cs.rdropWhile (· != '\n')).dropLast, ?_⟩
    rw [List.append_cons, ← hfront]
    exact hcut

theorem exists_append_lastLine (cs : List Char) : ∃ front, cs = front ++ lastLine cs := by
  rcases lastLine_cases cs with hline | ⟨front, hline⟩
  · exact ⟨[], by rw [hline]; rfl⟩
  · exact ⟨front ++ ['\n'], by rwa [← List.append_cons]⟩

/-- A backslash that ends the last physical line ends the text. -/
theorem endsInBackslash_of_lastLine {cs : List Char} (h : endsInBackslash (lastLine cs) = true) :
    endsInBackslash cs = true := by
  obtain ⟨front, hcut⟩ := exists_append_lastLine cs
  rw [hcut]
  exact endsInBackslash_append h front

/-- On a last line that is not blank the two rules agree. -/
theorem endsInBackslash_lastLine {cs : List Char} (h : ∃ c ∈ lastLine cs, isAsciiBlank c = false) :
    endsInBackslash (lastLine cs) = endsInBackslash cs := by
  obtain ⟨front, hcut⟩ := exists_append_lastLine cs
  rw [← endsInBackslash_append_of_not_blank front h, ← hcut]

/-! ## The two rules -/

namespace IsLogicalLine

/-- Where a logical line ends in a blank line, the backslash that continues it stands in front of
that. -/
theorem endsInBackslash_of_blank (h : IsLogicalLine before behind line)
    (hmark : ∃ c ∈ line, isAsciiBlank c = false)
    (hblank : ∀ c ∈ lastLine (before ++ line), isAsciiBlank c = true) :
    endsInBackslash (before ++ line) = true := by
  obtain ⟨c, hc, hcblank⟩ := hmark
  have hout : c ∉ lastLine (before ++ line) := by
    intro hmem
    rw [hblank c hmem] at hcblank
    cases hcblank
  rcases lastLine_cases (before ++ line) with hone | ⟨front, hcut⟩
  · rw [hone] at hout
    exact absurd (List.mem_append_right before hc) hout
  · -- the newline in front of the blank line stands in the line, behind the character that is no
    -- blank
    rcases List.append_eq_append_iff.1 hcut with ⟨middle, hfront, hline⟩ | ⟨middle, -, hlast⟩
    · have hcontinued := endsInBackslash_of_lastLine (h.continued middle _ hline)
      have hblanks : ∀ d ∈ '\n' :: lastLine (before ++ line), isAsciiBlank d = true :=
        List.forall_mem_cons.2 ⟨by decide, hblank⟩
      rw [hcut, hfront, endsInBackslash_append_of_blank _ hblanks]
      exact hcontinued
    · have hmem : c ∈ '\n' :: lastLine (before ++ line) := hlast ▸ List.mem_append_right middle hc
      rcases List.mem_cons.1 hmem with rfl | hmem
      · exact absurd hcblank (by decide)
      · exact absurd hmem hout

/-- A logical line is a line by the rule on all the text, unless it ends in a blank line. -/
theorem isLine_iff (h : IsLogicalLine before behind line)
    (hmark : ∃ c ∈ line, isAsciiBlank c = false) :
    IsLine (fun front => endsInBackslash (before ++ front)) behind line ↔
      ¬EndsBlank before behind line := by
  constructor
  · rintro hline ⟨hbehind, hblank⟩
    rcases hline.stops with hnil | ⟨-, hstops⟩
    · exact hbehind hnil
    · rw [h.endsInBackslash_of_blank hmark hblank] at hstops
      cases hstops
  · intro hends
    refine ⟨fun front back hcut => endsInBackslash_of_lastLine (h.continued front back hcut), ?_⟩
    rcases h.stops with hnil | ⟨hhead, hstops⟩
    · exact .inl hnil
    · have hbehind : behind ≠ [] := by
        rintro rfl
        cases hhead
      have hlast : ∃ c ∈ lastLine (before ++ line), isAsciiBlank c = false := by
        by_contra hno
        push Not at hno
        exact hends ⟨hbehind, fun c hc => by simpa using hno c hc⟩
      exact .inr ⟨hhead, (endsInBackslash_lastLine hlast).symm.trans hstops⟩

end IsLogicalLine

/-! ## Line directives -/

namespace Segment

variable {s : Segment}

/-- A line directive is a backtick and a word, and behind them a line by the rule on all the
text. -/
theorem IsLineDirective.exists_covered (hs : s.IsLineDirective) (h : s.Fits behind) :
    ∃ word covered, s.text = '\x60' :: word ++ covered ∧ (∀ c ∈ word, isWordChar c = true) ∧
      IsLine endsInBackslash behind covered := by
  rcases s with ⟨kind, text⟩
  obtain ⟨hkind, hlookup⟩ := hs
  obtain rfl : kind = .directive := hkind
  obtain ⟨cs, rfl⟩ := h.exists_backtick
  obtain ⟨word, covered, rfl, hword, hcovered⟩ := exists_run isWordChar cs
  have hwhole := h.startsWith_of_directive hword hcovered
  obtain ⟨extent, hextent, hmeasure⟩ := (fits_directive_iff hword hwhole).1 h
  have htake : (word ++ covered).takeWhile isWordChar = word := by
    rw [← take_run, run_append_of_all hword hcovered, List.take_left]
  rw [List.drop_succ_cons, List.drop_zero, htake, hextent] at hlookup
  obtain rfl := Option.some.inj hlookup
  cases covers_of_measure hmeasure with
  | line continued stops => exact ⟨word, covered, rfl, hword, continued, stops⟩

/-- **A line directive is a line by the rule on all the text.** -/
theorem IsLineDirective.isLine (hs : s.IsLineDirective) (h : s.Fits behind) (before : List Char) :
    IsLine (fun front => endsInBackslash (before ++ front)) behind s.text := by
  obtain ⟨word, covered, htext, hword, hcovered⟩ := hs.exists_covered h
  have hrule : ∀ front, endsInBackslash (before ++ ('\x60' :: word ++ front)) =
      endsInBackslash front := by
    intro front
    have hmark : continuedAfter (endsInBackslash before) ('\x60' :: word) = false :=
      ByteLexer.continuedAfter_of_isWordChar hword
    rw [← List.append_assoc, endsInBackslash_append_eq, endsInBackslash_append_eq, hmark]
    exact (endsInBackslash_append_eq [] front).symm
  rw [htext]
  refine ⟨fun front back hcut => ?_, hcovered.stops.imp id fun hstops => ⟨hstops.1, ?_⟩⟩
  · have hnewline : '\n' ∉ '\x60' :: word := by
      intro hmem
      rcases List.mem_cons.1 hmem with hmem | hmem
      · cases hmem
      · exact absurd (hword _ hmem) (by decide)
    rcases List.append_eq_append_iff.1 hcut with ⟨middle, rfl, hline⟩ | ⟨middle, hmark, hback⟩
    · exact (hrule middle).trans (hcovered.continued middle back hline)
    · rcases middle with _ | ⟨c, middle⟩
      · rw [List.append_nil] at hmark
        subst hmark
        have hnil := hrule []
        rw [List.append_nil] at hnil
        exact hnil.trans (hcovered.continued [] back hback.symm)
      · obtain ⟨rfl, -⟩ := List.cons.inj hback
        exact absurd (hmark ▸ List.mem_append_right front (List.mem_cons_self ..)) hnewline
  · exact (hrule covered).trans hstops.2

/-- A line directive is its logical line, or that line and more: more if the logical line ends in a
blank line, and only then. -/
theorem IsLineDirective.exists_isLogicalLine (hs : s.IsLineDirective) (h : s.Fits behind)
    (before : List Char) :
    ∃ line more, s.text = line ++ more ∧ IsLogicalLine before (more ++ behind) line ∧
      (more ≠ [] ↔ EndsBlank before (more ++ behind) line) := by
  obtain ⟨line, rest, hcut, hline⟩ :=
    exists_isLine (fun front => endsInBackslash (lastLine (before ++ front))) (s.text ++ behind)
  have hdirective := hs.isLine h before
  obtain ⟨more, htext, rfl⟩ :=
    hline.exists_append hdirective (fun _ => endsInBackslash_of_lastLine) hcut.symm
  have hline : IsLogicalLine before (more ++ behind) line := hline
  have hmark : ∃ c ∈ line, isAsciiBlank c = false := by
    obtain ⟨word, covered, hword, -⟩ := hs.exists_covered h
    rcases line with _ | ⟨c, line⟩
    · -- a logical line does not end in front of the backtick
      rw [List.nil_append] at htext
      rw [← htext, hword] at hline
      rcases hline.stops with hnil | ⟨hhead, -⟩
      · cases hnil
      · cases hhead
    · rw [hword] at htext
      obtain ⟨rfl, -⟩ := List.cons.inj htext
      exact ⟨_, List.mem_cons_self .., by decide⟩
  have hmore : IsLine (fun front => endsInBackslash (before ++ front)) (more ++ behind) line ↔
      more = [] := by
    constructor
    · intro hwhole
      have hline := hwhole.unique hdirective hcut.symm
      rw [htext, List.self_eq_append_right] at hline
      exact hline
    · rintro rfl
      rw [List.append_nil] at htext
      exact htext ▸ hdirective
  have hends : ¬EndsBlank before (more ++ behind) line ↔ more = [] :=
    (hline.isLine_iff hmark).symm.trans hmore
  exact ⟨line, more, htext, hline, by rw [ne_eq, ← hends, not_not]⟩

end Segment

/-! ## Lexing behind a directive -/

/-- The events of segments one after the other. -/
theorem Segment.eventsFrom_append (start : Nat) (front back : List Segment) :
    eventsFrom start (front ++ back) =
      eventsFrom start front ++ eventsFrom (start + Text.byteLength (front.flatMap text)) back := by
  induction front generalizing start with
  | nil => rfl
  | cons s front ih =>
    have hstart : start + s.byteLength + Text.byteLength (front.flatMap text) =
        start + Text.byteLength ((s :: front).flatMap text) := by
      rw [List.flatMap_cons, Text.byteLength_append, Segment.byteLength, Nat.add_assoc]
    rw [List.cons_append, eventsFrom, eventsFrom, ih, hstart]
    split
    · rfl
    · rw [List.cons_append]

namespace Lexing

variable {source : String} {before after : List Segment} {s : Segment}

/-- In front of trivia and behind it a source is read as if nothing else stood there. -/
theorem ofSource_of_isSilent (hcut : split source.toList = before ++ s :: after)
    (hs : s.isSilent = true) :
    ofSource source =
      (ofSource (String.ofList (before.flatMap text))).followedBy
        ((ofSource (String.ofList (after.flatMap text))).shift
          (byteLength (before.flatMap text ++ s.text))) := by
  have hfit := fit_split source.toList
  rw [hcut, fit_append] at hfit
  obtain ⟨hbefore, -, hafter⟩ := hfit
  have htext : source.toList = before.flatMap text ++ s.text ++ after.flatMap text := by
    rw [← flatMap_text_split source.toList, hcut, List.flatMap_append, List.flatMap_cons,
      List.append_assoc]
  refine ofSource_of_eventsFrom ?_ ?_
  · rw [eventsFrom, hcut, String.toList_ofList, String.toList_ofList, eventsFrom, eventsFrom,
      hbefore.split_flatMap_text, hafter.split_flatMap_text, Segment.eventsFrom_append,
      Segment.eventsFrom, if_pos hs, Nat.zero_add, byteLength_append, Segment.byteLength]
  · rw [← byteLength_toList, htext, byteLength_append, ← byteLength_eq_utf8ByteSize]

/-- **Lexing resumes behind the logical line of a directive, unless that ends in a blank line.** A
line directive is its logical line, and then what the lexer takes beyond: nothing, unless the
logical line ends in a blank line with other lines behind it. The source is read as what stands in
front of the directive, and then what stands behind it. -/
theorem ofSource?_lineDirective (hcut : split source.toList = before ++ s :: after)
    (hs : s.IsLineDirective) :
    ∃ line more behind left right,
      s.text = line ++ more ∧
      source.toList = before.flatMap text ++ (line ++ (more ++ behind)) ∧
      IsLogicalLine (before.flatMap text) (more ++ behind) line ∧
      (more ≠ [] ↔ EndsBlank (before.flatMap text) (more ++ behind) line) ∧
      ofSource? (String.ofList (before.flatMap text)) = some left ∧
      ofSource? (String.ofList behind) = some right ∧
      ofSource? source =
        some (left.followedBy (right.shift (byteLength (before.flatMap text ++ (line ++ more))))) :=
  by
  obtain ⟨line, more, htext, hline, hmore⟩ :=
    hs.exists_isLogicalLine (fits_of_split_eq hcut) (before.flatMap text)
  have hsource : source.toList = before.flatMap text ++ (line ++ (more ++ after.flatMap text)) := by
    rw [← flatMap_text_split source.toList, hcut, List.flatMap_append, List.flatMap_cons, htext,
      List.append_assoc]
  have hsilent : s.isSilent = true := by
    rw [isSilent, hs.1]
  refine ⟨line, more, after.flatMap text, _, _, htext, hsource, hline, hmore, ofSource?_eq _,
    ofSource?_eq _, ?_⟩
  rw [ofSource?_eq, ofSource_of_isSilent hcut hsilent, htext]

/-- A directive continued over the end of a line that a carriage return stands on. -/
theorem ofSource?_lineDirective_continued :
    ∃ left right, ofSource? "" = some left ∧ ofSource? "\nmodule m" = some right ∧
      ofSource? "\x60define W \\\r\n 8\nmodule m" = some (left.followedBy (right.shift 15)) := by
  have hcut : split "\x60define W \\\r\n 8\nmodule m".toList = [] ++
      ⟨.directive, "\x60define W \\\r\n 8".toList⟩ :: [⟨.blank, ['\n']⟩,
        ⟨.lexeme (.keyword .moduleOpen), "module".toList⟩, ⟨.blank, [' ']⟩,
        ⟨.lexeme .identifier, ['m']⟩] := by
    cbv
  obtain ⟨line, more, behind, left, right, htext, hsource, -, -, hleft, hright, h⟩ :=
    ofSource?_lineDirective hcut (by decide)
  have hbehind : String.ofList behind = "\nmodule m" := by
    rw [← List.append_assoc line, ← htext] at hsource
    have hlist : behind = "\nmodule m".toList := by simpa using hsource.symm
    rw [hlist, String.ofList_toList]
  rw [hbehind] at hright
  rw [← htext] at h
  exact ⟨left, right, hleft, hright, h⟩

/-- A blank line behind a continued line does not end a directive. -/
theorem not_forall_isLogicalLine :
    ¬∀ (source : String) (before after : List Segment) (s : Segment),
      split source.toList = before ++ s :: after → s.IsLineDirective →
        IsLogicalLine (before.flatMap text) (after.flatMap text) s.text := by
  intro h
  have hcut : split "\x60define A \\\n\nmodule m; endmodule".toList =
      [] ++ ⟨.directive, "\x60define A \\\n\nmodule m; endmodule".toList⟩ :: [] := by
    cbv
  have hline := h _ _ _ _ hcut (by decide)
  have hcontinued :=
    hline.continued "\x60define A \\\n".toList "module m; endmodule".toList (by decide)
  exact absurd hcontinued (by decide)

end Lexing

end VerilogScaffold
