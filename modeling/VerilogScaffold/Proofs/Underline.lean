import Mathlib
import VerilogScaffold.Proofs.Cut
import VerilogScaffold.Proofs.LineIndex
import VerilogScaffold.Proofs.Safety

/-!
# Carets under a line

A report shows the line that a span starts on, and under it as many carets as the span has bytes.
The carets start under the first byte of the span, and where the span lies on the line as it is
shown they stand under its text and no other. A span that goes on behind the line is longer than
what is shown of it, so its carets run past the end of the line.

## Shape of the argument

The text of a diagnostic is an event of the source, so it does not start in a blank. What is left of
it on its line is therefore shown, whatever is cut off at the end of the line
(`Span.exists_onLine`).
-/

namespace VerilogScaffold

variable {source : String} {cs front text behind : List Char} {c : Char}

/-! ## The line of a place -/

/-- What is cut off from the right ends where a character stays. -/
theorem Text.rdropWhile_append_of_getLast? {p : Char → Bool} {xs : List Char}
    (h : ∀ x, xs.getLast? = some x → p x = false) (ys : List Char) :
    (xs ++ ys).rdropWhile p = xs ++ ys.rdropWhile p := by
  induction ys using List.reverseRecOn with
  | nil =>
    rcases List.eq_nil_or_concat xs with rfl | ⟨init, last, rfl⟩
    · rfl
    · rw [List.concat_eq_append] at h ⊢
      rw [List.append_nil, List.rdropWhile_nil, List.append_nil]
      exact List.rdropWhile_concat_neg _ _ _ (by simp [h last (by simp)])
  | append_singleton ys y ih =>
    rw [← List.append_assoc, List.rdropWhile_concat, List.rdropWhile_concat]
    split
    · exact ih
    · rw [List.append_assoc]

theorem Text.bne_newline_of_not_mem (h : '\n' ∉ cs) : ∀ c ∈ cs, (c != '\n') = true := by
  intro c hc
  rw [bne_iff_ne]
  rintro rfl
  exact h hc

namespace SourceFile

/-- The last line of a text starts behind what a look back from its end leaves. -/
theorem lastLineStart_encode (front : List Char) :
    lastLineStart (Text.encode front) = Text.byteLength (front.rdropWhile (· != '\n')) := by
  induction front using List.reverseRecOn with
  | nil => rfl
  | append_singleton front c ih =>
    rw [← getLastD_newlineEnds] at ih ⊢
    rw [Text.encode_append, newlineEnds_append, Text.encode_cons, Text.encode_nil, List.append_nil,
      newlineEnds_utf8EncodeChar, List.rdropWhile_concat]
    by_cases hc : c = '\n'
    · subst hc
      simp
    · rw [if_neg hc, if_pos (by simpa using hc), List.append_nil]
      exact ih

variable {f : SourceFile}

/-- A column counts the bytes that stand before a place on its line. -/
theorem column_position (hf : f.content.toList = front ++ behind) :
    (f.position (Text.byteLength front)).column = Text.byteLength
    (front.rtakeWhile (· != '\n')) + 1 := by
  have hbytes : bytesBefore f.content (Text.byteLength front) = Text.encode front := by
    rw [bytesBefore, toList_data_toUTF8, hf, Text.encode_append,
      ← Text.length_encode, List.take_left]
  have hsplit :=
    congrArg Text.byteLength (List.rdropWhile_append_rtakeWhile (p := (· != '\n')) (l := front))
  rw [Text.byteLength_append] at hsplit
  rw [position_eq_counted, counted, hbytes, lastLineStart_encode]
  show 1 + _ = _
  omega

/-- The line of a place, as it is shown. -/
theorem lineText_byteLength (hf : f.content.toList = front ++ behind) :
    f.lineText (Text.byteLength front) =
      trimmedLine (front.rtakeWhile (· != '\n') ++ behind.takeWhile (· != '\n')) := by
  simp only [lineText, hf, Text.charsBefore_append, List.drop_left]
  rfl

end SourceFile

/-! ## Spans on a line -/

/-- What a source has on the line that a span starts on: the text before the span, the part of the
span and of what follows it that is shown, and the carriage returns behind it that are not. -/
structure Span.OnLine (span : Span) (source : String)
    (above left text behind shown returns : List Char) : Prop where
  source_eq : source.toList = above ++ left ++ text ++ behind
  above_eq : above = [] ∨ above.getLast? = some '\n'
  left_eq : '\n' ∉ left
  start_eq : span.start.toNat = Text.byteLength (above ++ left)
  text_eq : span.text? source = some (String.ofList text)
  text_ne : text ≠ []
  line_eq : (left ++ text ++ behind).takeWhile (· != '\n') = left ++ shown ++ returns
  shown_ne : shown ≠ []
  returns_eq : ∀ c ∈ returns, c = '\r'

namespace Span.OnLine

variable {span : Span} {above left shown returns : List Char}

theorem line_rest (h : span.OnLine source above left text behind shown returns) :
    (text ++ behind).takeWhile (· != '\n') = shown ++ returns := by
  have hline := h.line_eq
  rw [List.append_assoc, List.takeWhile_append_of_pos (Text.bne_newline_of_not_mem h.left_eq),
    List.append_assoc] at hline
  exact List.append_cancel_left hline

/-- A text that goes on behind its line is longer than what is shown of it. -/
theorem byteLength_lt (h : span.OnLine source above left text behind shown returns)
    (hline : '\n' ∈ text) :
    Text.byteLength shown < Text.byteLength text := by
  have hrest := h.line_rest
  have hsplit := List.takeWhile_append_dropWhile (p := (· != '\n')) (l := text)
  have hdrop : text.dropWhile (· != '\n') ≠ [] := by
    intro hnil
    have := List.dropWhile_eq_nil_iff.1 hnil '\n' hline
    simp at this
  have hbreak : (text ++ behind).takeWhile (· != '\n') = text.takeWhile (· != '\n') := by
    have hlength := congrArg List.length hsplit
    have hlonger := List.length_pos_iff.2 hdrop
    rw [List.length_append] at hlength
    rw [List.takeWhile_append, if_neg (by omega)]
  have hpos := Text.byteLength_pos hdrop
  have htext := congrArg Text.byteLength hsplit
  have hshown := congrArg Text.byteLength (hbreak.symm.trans hrest)
  rw [Text.byteLength_append] at htext hshown
  omega

/-- A text is shown in full, unless it goes on behind its line or its own end is cut off. -/
theorem isPrefix_or (h : span.OnLine source above left text behind shown returns) :
    text <+: shown ∨ Text.byteLength shown < Text.byteLength text ∧
      ('\n' ∈ text ∨ text.getLast? = some '\r') := by
  by_cases hline : '\n' ∈ text
  · exact .inr ⟨h.byteLength_lt hline, .inl hline⟩
  · have hrest := h.line_rest
    rw [List.takeWhile_append_of_pos (Text.bne_newline_of_not_mem hline)] at hrest
    rcases List.append_eq_append_iff.1 hrest with ⟨more, hshown, -⟩ | ⟨more, hcut, hreturns⟩
    · exact .inl ⟨more, hshown.symm⟩
    · rcases List.eq_nil_or_concat more with rfl | ⟨init, last, rfl⟩
      · exact .inl ⟨[], by rw [hcut, List.append_nil, List.append_nil]⟩
      · -- what of the text is not shown can only be carriage returns
        have hlast : last = '\r' := h.returns_eq last (by rw [hreturns]; simp)
        have hpos : 0 < Text.byteLength (init.concat last) := Text.byteLength_pos (by simp)
        refine .inr ⟨?_, .inr ?_⟩
        · rw [hcut, Text.byteLength_append]
          omega
        · rw [hcut, hlast]
          simp

end Span.OnLine

/-! ## Events on their lines -/

/-- An event is cut out of a source where it stands, and does not start in a blank. -/
theorem Event.exists_split {e : Event} (h : e ∈ VerilogScaffold.eventsFrom 0 cs) :
    ∃ front c text behind, cs = front ++ (c :: text ++ behind) ∧ e.segment.text = c :: text ∧
      e.start = Text.byteLength front ∧ Text.isAsciiBlank c = false := by
  obtain ⟨front, behind, hcs, hstart, c, text, htext, hmeasure⟩ :=
    Segment.exists_fits_of_mem_eventsFrom h
  refine ⟨front, c, text, behind, ?_, htext, hstart, ?_⟩
  · rw [hcs, htext]
  · refine Bool.eq_false_iff.2 fun hblank => ?_
    have hsilent := Segment.isSilent_of_mem_eventsFrom h
    rw [Segment.measure, if_pos hblank] at hmeasure
    have hkind : e.segment.kind = .blank := (congrArg Prod.fst hmeasure).symm
    rw [Segment.isSilent, hkind] at hsilent
    cases hsilent

/-- A piece of a source that does not start in a blank is shown on its line, from its first
character on. -/
theorem Span.exists_onLine {span : Span} (hsource : source.toList = front ++ (c :: text ++ behind))
    (hstart : span.start.toNat = Text.byteLength front)
    (hstop : span.stop.toNat = Text.byteLength front + Text.byteLength (c :: text))
    (hblank : Text.isAsciiBlank c = false) :
    ∃ above left shown returns, span.OnLine source above left (c :: text) behind shown returns ∧
      ∀ path, (SourceFile.mk path source).lineText span.start.toNat =
        String.ofList (left ++ shown) ∧
        ((SourceFile.mk path source).position span.start.toNat).column =
          Text.byteLength left + 1 := by
  have hnewline : (c != '\n') = true := by
    rw [bne_iff_ne]
    rintro rfl
    cases hblank
  have hreturn : (c == '\r') = false := by
    rw [beq_eq_false_iff_ne]
    rintro rfl
    cases hblank
  have hfront := List.rdropWhile_append_rtakeWhile (p := (· != '\n')) (l := front)
  have hleft : ∀ d ∈ front.rtakeWhile (· != '\n'), (d != '\n') = true := by
    intro d hd
    exact List.mem_rtakeWhile_imp (p := (· != '\n')) hd
  -- what is on the line from the span on starts with a character that is not cut off at its end
  have htail : (c :: text ++ behind).takeWhile (· != '\n') = c ::
      (text ++ behind).takeWhile (· != '\n') :=
    List.takeWhile_cons_of_pos hnewline
  generalize (text ++ behind).takeWhile (· != '\n') = tail at htail
  have hkeep : ∀ xs : List Char, (xs ++ c :: tail).rdropWhile (· == '\r') =
      xs ++ c :: tail.rdropWhile (· == '\r') := by
    intro xs
    have hlast : ∀ d, (xs ++ [c]).getLast? = some d → (d == '\r') = false := by
      intro d hd
      obtain rfl : c = d := by simpa using hd
      exact hreturn
    simpa using Text.rdropWhile_append_of_getLast? hlast tail
  have hshown : (c :: tail).rdropWhile (· == '\r') = c :: tail.rdropWhile (· == '\r') := hkeep []
  refine ⟨front.rdropWhile (· != '\n'), front.rtakeWhile (· != '\n'),
    (c :: tail).rdropWhile (· == '\r'),
    (c :: tail).rtakeWhile (· == '\r'), ⟨?_, ?_, ?_, ?_, ?_, ?_, ?_, ?_, ?_⟩, fun path => ⟨?_, ?_⟩⟩
  · rw [hfront, List.append_assoc, hsource]
  · by_cases hnil : front.rdropWhile (· != '\n') = []
    · exact .inl hnil
    · have hlast := List.rdropWhile_last_not (· != '\n') front hnil
      rw [List.getLast?_eq_some_getLast hnil]
      exact .inr (congrArg some (by simpa using hlast))
  · intro hmem
    exact absurd (hleft _ hmem) (by simp)
  · rw [hfront, hstart]
  · rw [Span.text?, hstart, hstop, hsource, Text.slice?_append]
    rfl
  · exact List.cons_ne_nil c text
  · rw [List.append_assoc, List.takeWhile_append_of_pos hleft, htail, List.append_assoc,
      List.rdropWhile_append_rtakeWhile]
  · rw [hshown]
    exact List.cons_ne_nil _ _
  · intro d hd
    exact beq_iff_eq.1 (List.mem_rtakeWhile_imp (p := (· == '\r')) hd)
  · rw [hstart, SourceFile.lineText_byteLength hsource, htail, hshown, ← hkeep]
    rfl
  · rw [hstart, SourceFile.column_position hsource]

/-! ## Reports -/

namespace Location

/-- The part of a report that shows a place and its line, up to the row of carets. -/
def lead (location : Location) (line : String) : String :=
  let number := toString location.first.line
  let gutter := String.ofList (List.replicate number.length ' ')
  "  --> " ++ location.text ++ "\n" ++
    gutter ++ " |\n" ++
    number ++ " | " ++ line ++ "\n" ++
    gutter ++ " | "

/-- The part of a report that shows a place and its line, with carets under the line. -/
def excerpt (location : Location) (line : String) (indent carets : Nat) : String :=
  location.lead line ++ String.ofList (List.replicate indent ' ') ++
    String.ofList (List.replicate carets '^') ++ "\n"

end Location

namespace Diagnostic

/-- A report around an excerpt of the source. -/
def reportAround (d : Diagnostic) (colour : Bool) (excerpt : String) : String :=
  d.header colour ++ ": " ++ d.message ++ "\n" ++ excerpt ++
    String.join (d.notes.map fun note => "   = note: " ++ note ++ "\n") ++
    String.join (d.help.map fun help => "   = help: " ++ help ++ "\n")

/-- The report on a span that does not stop before it starts. -/
theorem report?_eq_reportAround (d : Diagnostic) (colour : Bool) (f : SourceFile)
    (hspan : d.span ≠ .dummy) (hle : d.span.start.toNat ≤ d.span.stop.toNat) :
    d.report? colour f =
      some (d.reportAround colour ((f.locate d.span).excerpt (f.lineText d.span.start.toNat)
      ((f.position d.span.start.toNat).column - 1)
      (max (d.span.stop.toNat - d.span.start.toNat) 1))) := by
  have hlength : d.span.length? = some (d.span.stop.toNat - d.span.start.toNat) :=
    if_pos (UInt32.le_iff_toNat_le.2 hle)
  have hshown : ¬ d.span.isDummy = true := by simpa [Span.isDummy] using hspan
  rw [report?, if_neg hshown, excerpt?, hlength, SourceFile.locate?_eq, SourceFile.lineText?_eq]
  rfl

theorem length_reportAround (d : Diagnostic) (colour : Bool) (excerpt : String) :
    (d.reportAround colour excerpt).length = (d.reportAround colour "").length +
      excerpt.length := by
  have hempty : "".length = 0 := rfl
  simp only [reportAround, String.length_append]
  omega

theorem length_excerpt (location : Location) (line : String) (indent carets : Nat) :
    (location.excerpt line indent carets).length = (location.lead line).length +
      (indent + carets) + 1 := by
  have hnewline : "\n".length = 1 := rfl
  simp only [Location.excerpt, String.length_append, String.length_ofList, List.length_replicate]
  omega

/-- Reports with the same text have rows of carets that reach equally far. -/
theorem add_eq_of_reportAround_eq {d : Diagnostic} {colour : Bool} {location : Location}
    {line : String} {i j m n : Nat}
    (h : d.reportAround colour (location.excerpt line i m) =
      d.reportAround colour (location.excerpt line j n)) :
    i + m = j + n := by
  have hlength := congrArg String.length h
  rw [length_reportAround d colour (location.excerpt line i m), length_excerpt,
    length_reportAround d colour (location.excerpt line j n), length_excerpt] at hlength
  omega

end Diagnostic

namespace Extraction

/-- The carets under a line start under the first byte of the span, and there are as many as the
span has bytes. They stand under the text of the span, unless it goes on behind the line or ends in
a carriage return, of which the line is shown without those at its end. Where it goes on behind the
line, the carets run past the end. -/
theorem report?_underlined (ha : Addressable source) {d : Diagnostic}
    (hd : d ∈ (ofSource source).diagnostics)
    (hspan : d.span ≠ .dummy) :
    ∃ above left text behind shown returns,
    d.span.OnLine source above left text behind shown returns ∧
      (∀ path colour, d.report? colour ⟨path, source⟩ =
        some (d.reportAround colour (((SourceFile.mk path source).locate d.span).excerpt
          (String.ofList (left ++ shown)) (Text.byteLength left) (Text.byteLength text)))) ∧
      1 ≤ Text.byteLength text ∧
      (Text.slice? (Text.byteLength left) (Text.byteLength left + Text.byteLength text)
        (left ++ shown) = some text ∨
        Text.byteLength (left ++ shown) < Text.byteLength left + Text.byteLength text ∧
          ('\n' ∈ text ∨ text.getLast? = some '\r')) ∧
      ('\n' ∈ text → Text.byteLength (left ++ shown) < Text.byteLength left +
        Text.byteLength text) := by
  rcases exists_event (ofSource?_eq ha) hd with ⟨hdummy, -⟩ | ⟨e, he, hplace⟩
  · exact absurd hdummy hspan
  · obtain ⟨front, c, text, behind, hsource, htext, hfront, hblank⟩ := Event.exists_split he
    have hlies := (Event.liesOn_of_mem he).1
    have hstart : d.span.start.toNat = Text.byteLength front := by
      rw [hplace, hlies.toNat_start ha, ← hfront]
      rfl
    have hstop : d.span.stop.toNat = Text.byteLength front + Text.byteLength (c :: text) := by
      rw [hplace, hlies.toNat_stop ha, ← hfront, ← htext]
      rfl
    obtain ⟨above, left, shown, returns, hline, hshown⟩ :=
      Span.exists_onLine hsource hstart hstop hblank
    have hpos : 0 < Text.byteLength (c :: text) := Text.byteLength_pos (List.cons_ne_nil c text)
    refine ⟨above, left, c :: text, behind, shown, returns, hline, fun path colour => ?_, hpos, ?_,
      fun hmany => ?_⟩
    · obtain ⟨hlineText, hcolumn⟩ := hshown path
      rw [d.report?_eq_reportAround colour _ hspan (by omega), hlineText, hcolumn, hstop, hstart,
        Nat.add_sub_cancel_left, Nat.add_sub_cancel, Nat.max_eq_left hpos]
    · rw [Text.byteLength_append]
      rcases hline.isPrefix_or with ⟨rest, hrest⟩ | ⟨hlt, hends⟩
      · left
        rw [← hrest]
        exact Text.slice?_append _ (c :: text) rest
      · exact .inr ⟨Nat.add_lt_add_left hlt _, hends⟩
    · rw [Text.byteLength_append]
      exact Nat.add_lt_add_left (hline.byteLength_lt hmany) _

/-- A string that is not closed, behind a character of two bytes. -/
def openString : Diagnostic :=
  ⟨.error, ⟨.error, 102⟩, "unterminated string literal", ⟨27, 29⟩, [], []⟩

theorem mem_openString : openString ∈ (ofSource "module m; endmodule\n/*é*/ \"a").diagnostics := by
  have hx : ofSource "module m; endmodule\n/*é*/ \"a" =
      ⟨.ok ⟨"m", [], [], [], []⟩, [openString]⟩ := by
    rw [ofSource, ofSource?_eq_ofLexing?]
    cbv
  rw [hx]
  exact List.mem_singleton_self _

theorem report?_underlined_string :
    Addressable "module m; endmodule\n/*é*/ \"a" ∧
      openString ∈ (ofSource "module m; endmodule\n/*é*/ \"a").diagnostics ∧
      openString.span ≠ .dummy ∧
      ∃ above left behind shown returns,
        openString.span.OnLine "module m; endmodule\n/*é*/ \"a" above left ['"', 'a']
        behind shown returns ∧
        openString.report? false ⟨⟨"m.v"⟩, "module m; endmodule\n/*é*/ \"a"⟩ =
          some (openString.reportAround false
          (((SourceFile.mk ⟨"m.v"⟩ "module m; endmodule\n/*é*/ \"a").locate openString.span).excerpt
            (String.ofList (left ++ shown)) (Text.byteLength left) 2)) ∧
        Text.slice? (Text.byteLength left) (Text.byteLength left + 2) (left ++ shown) =
          some ['"', 'a'] := by
  have ha : Addressable "module m; endmodule\n/*é*/ \"a" := by decide
  obtain ⟨above, left, text, behind, shown, returns, hline, hreport, -, hunder, -⟩ :=
    report?_underlined ha mem_openString (by decide)
  have htext : text = ['"', 'a'] := by
    have htext := hline.text_eq
    rw [show openString.span.text? "module m; endmodule\n/*é*/ \"a" = some "\"a" by rfl] at htext
    exact (String.ofList_injective (Option.some.inj htext)).symm
  subst htext
  refine ⟨ha, mem_openString,
    by decide, above, left, behind, shown, returns, hline, hreport _ _, ?_⟩
  exact hunder.resolve_right fun hpast => absurd hpast.2 (by decide)

/-- A comment that is not closed, on two lines. -/
def openComment : Diagnostic :=
  ⟨.error, ⟨.error, 101⟩, "unterminated block comment", ⟨20, 26⟩, [], []⟩

theorem mem_openComment : openComment ∈ (ofSource "module m; endmodule /* a\nb").diagnostics := by
  have hx : ofSource "module m; endmodule /* a\nb" =
      ⟨.ok ⟨"m", [], [], [], []⟩, [openComment]⟩ := by
    rw [ofSource, ofSource?_eq_ofLexing?]
    cbv
  rw [hx]
  exact List.mem_singleton_self _

/-- Carets need not stay on their line. -/
theorem not_forall_carets_le :
    ¬ ∀ source, Addressable source → ∀ d ∈ (ofSource source).diagnostics, d.span ≠ .dummy →
      ∀ path colour, ∃ indent carets,
        d.report? colour ⟨path, source⟩ =
          some (d.reportAround colour (((SourceFile.mk path source).locate d.span).excerpt
          ((SourceFile.mk path source).lineText d.span.start.toNat) indent carets)) ∧
        indent + carets ≤ ((SourceFile.mk path source).lineText d.span.start.toNat).utf8ByteSize :=
          by
  intro h
  obtain ⟨indent, carets, hreport, hle⟩ :=
    h "module m; endmodule /* a\nb" (by decide) openComment mem_openComment
    (by decide) ⟨"m.v"⟩ false
  have hline : ((SourceFile.mk ⟨"m.v"⟩ "module m; endmodule /* a\nb").lineText
      openComment.span.start.toNat).utf8ByteSize =
      24 := by decide
  have hcolumn : ((SourceFile.mk ⟨"m.v"⟩ "module m; endmodule /* a\nb").position
      openComment.span.start.toNat).column = 21 := by decide
  rw [Diagnostic.report?_eq_reportAround openComment false _ (by decide) (by decide),
    hcolumn] at hreport
  have hsum := Diagnostic.add_eq_of_reportAround_eq (Option.some.inj hreport)
  have hbytes : max (openComment.span.stop.toNat - openComment.span.start.toNat) 1 = 6 := by decide
  omega

end Extraction

end VerilogScaffold
