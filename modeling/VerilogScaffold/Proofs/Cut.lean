import VerilogScaffold.Proofs.Lookahead
import VerilogScaffold.Proofs.Site

/-!
# Texts put together from segments

Segments that are cut off a text one after the other, in front of whatever follows, are the start of
the cut of the whole (`Segment.Fit`). Where they were cut off in front of one text they are cut off
in front of another, if what stands behind the last of them can be replaced so (`Fit.congr`), and in
front of nothing in any case (`Fit.nil`). An excerpt of a source is therefore read on its own as it
was read there, and again when it is copied into another text.

`Reads` collects what is asked of a generated text: its tokens, and that nothing in it is malformed.
It is built up from the end of the text, a piece at a time.
-/

namespace VerilogScaffold

/-! ## What a segment starts with -/

/-- Whether a segment of some kind can start with a character. -/
def SegmentKind.opens (c : Char) : SegmentKind → Bool
  | .blank => Text.isAsciiBlank c
  | .comment _ => c == '/'
  | .directive | .lexeme .macroUsage => c == '\x60'
  | .lexeme (.keyword _) | .lexeme .identifier => Segment.isWordStart c
  | .lexeme .escapedIdentifier | .malformed .emptyEscapedName => c == '\\'
  | .lexeme .systemIdentifier => c == '$'
  | .lexeme .number => c.isDigit || c == '\''
  | .lexeme .stringLiteral | .malformed .unterminatedString => c == '"'
  | .lexeme _ | .malformed (.unrecognized _) => true

/-- Whether a lexeme can be of a kind. The end of a source is no lexeme, and neither is malformed
text. -/
def TokenKind.isWritten : TokenKind → Bool
  | .eof | .error => false
  | _ => true

namespace Segment

variable {c : Char} {cs : List Char}

/-- A mark of one character makes a lexeme that may start with any character. -/
theorem opens_and_isWritten_of_loneMark? {kind : TokenKind} (h : loneMark? c = some kind) :
    (∀ d, (SegmentKind.lexeme kind).opens d = true) ∧ kind.isWritten = true := by
  revert h
  unfold loneMark?
  split
  case h_10 =>
    split
    · rintro ⟨⟩
      exact ⟨fun _ => rfl, rfl⟩
    · exact fun h => nomatch h
  all_goals
    rintro ⟨⟩
    exact ⟨fun _ => rfl, rfl⟩

/-- **A segment starts as its kind asks.** -/
theorem measure_opens (c : Char) (cs : List Char) : (measure c cs).1.opens c = true := by
  fun_cases measure c cs with
  | case1 hblank => exact hblank
  | case2 hblank hline => exact beq_iff_eq.2 hline.1
  | case3 hblank hline hblock => exact beq_iff_eq.2 hblock.1
  | case4 hblank hline hblock => exact beq_iff_eq.2 hblock.1
  | case5 hblank hline hblock htick =>
    rw [measureBacktick]
    split <;> exact beq_iff_eq.2 htick
  | case6 hblank hline hblock htick hword =>
    rw [wordKind]
    split <;> exact hword
  | case7 hblank hline hblock htick hword hescaped =>
    rw [measureEscaped]
    split <;> exact beq_iff_eq.2 hescaped
  | case8 hblank hline hblock htick hword hescaped hdollar => exact beq_iff_eq.2 hdollar
  | case9 hblank hline hblock htick hword hescaped hdollar hdigit =>
    simp [SegmentKind.opens, hdigit]
  | case10 hblank hline hblock htick hword hescaped hdollar hdigit hbase =>
    simp [SegmentKind.opens, hbase.1]
  | case11 hblank hline hblock htick hword hescaped hdollar hdigit hbase hquote =>
    simp only [measureString]
    split <;> exact beq_iff_eq.2 hquote
  | case12 =>
    rw [measureMark]
    split
    · exact (opens_and_isWritten_of_loneMark? ‹_›).1 c
    · split
      · split <;> rfl
      · split <;> rfl

/-- **What is cut off as a lexeme is written in the text.** -/
theorem isWritten_of_measure {kind : TokenKind} (h : (measure c cs).1 = .lexeme kind) :
    kind.isWritten = true := by
  revert h
  fun_cases measure c cs with
  | case1 | case2 | case3 | case4 => rintro ⟨⟩
  | case5 =>
    rw [measureBacktick]
    split <;> rintro ⟨⟩
    rfl
  | case6 =>
    rw [wordKind]
    split <;> rintro ⟨⟩ <;> rfl
  | case7 =>
    rw [measureEscaped]
    split <;> rintro ⟨⟩
    rfl
  | case8 | case9 | case10 =>
    rintro ⟨⟩
    rfl
  | case11 =>
    simp only [measureString]
    split <;> rintro ⟨⟩
    rfl
  | case12 =>
    rw [measureMark]
    split
    · rintro ⟨⟩
      exact (opens_and_isWritten_of_loneMark? ‹_›).2
    · split
      · split <;> rintro ⟨⟩ <;> rfl
      · split <;> rintro ⟨⟩
        rfl

end Segment

/-! ## Segments one after the other -/

namespace Segment

variable {s : Segment} {segments more : List Segment} {F F' : List Char}

/-- Whether a segment is cut off a text in which `F` stands behind it. -/
def Fits (F : List Char) (s : Segment) : Prop :=
  ∃ c cs, s.text = c :: cs ∧ measure c (cs ++ F) = (s.kind, cs.length)

/-- Whether segments are cut off, one after the other, a text in which `F` stands behind them. -/
def Fit (F : List Char) : List Segment → Prop
  | [] => True
  | s :: rest => s.Fits (rest.flatMap text ++ F) ∧ Fit F rest

theorem Fits.split_append (h : s.Fits F) : split (s.text ++ F) = s :: split F := by
  obtain ⟨c, cs, htext, hmeasure⟩ := h
  rcases s with ⟨kind, text⟩
  obtain rfl : text = c :: cs := htext
  rw [List.cons_append, split, hmeasure]
  simp

theorem Fits.isWritten {kind : TokenKind} (h : s.Fits F) (hs : s.kind = .lexeme kind) :
    kind.isWritten = true := by
  obtain ⟨c, cs, -, hmeasure⟩ := h
  exact isWritten_of_measure ((congrArg Prod.fst hmeasure).trans hs)

theorem Fit.split_append (h : Fit F segments) :
    split (segments.flatMap text ++ F) = segments ++ split F := by
  induction segments with
  | nil => rfl
  | cons s rest ih =>
    rw [List.flatMap_cons, List.append_assoc, h.1.split_append, ih h.2, List.cons_append]

theorem fits_of_cons (c : Char) (cs : List Char) :
    Fits (cs.drop (measure c cs).2) ⟨(measure c cs).1, c :: cs.take (measure c cs).2⟩ := by
  refine ⟨c, cs.take (measure c cs).2, rfl, ?_⟩
  rw [List.take_append_drop, List.length_take, Nat.min_eq_left (measure_le_length c cs)]

/-- The cut of a text. -/
theorem fit_split (cs : List Char) : Fit [] (split cs) := by
  fun_induction split cs with
  | case1 => trivial
  | case2 c cs ih =>
    refine ⟨?_, ih⟩
    rw [flatMap_text_split, List.append_nil]
    exact fits_of_cons c cs

theorem fit_append : Fit F (segments ++ more) ↔
    Fit (more.flatMap text ++ F) segments ∧ Fit F more := by
  induction segments with
  | nil => simp [Fit]
  | cons s rest ih =>
    simp only [List.cons_append, Fit, ih, List.flatMap_append, List.append_assoc, and_assoc]

/-- An event is cut off its text where it stands. -/
theorem exists_fits_of_mem_eventsFrom {cs : List Char} {e : Event}
    (h : e ∈ VerilogScaffold.eventsFrom 0 cs) :
    ∃ front behind, cs = front ++ (e.segment.text ++ behind) ∧ e.start = Text.byteLength front ∧
      e.segment.Fits behind := by
  obtain ⟨before, after, hsplit, hstart⟩ := exists_of_mem_eventsFrom h
  have hfit := fit_split cs
  rw [hsplit, fit_append] at hfit
  refine ⟨before.flatMap text, after.flatMap text, ?_, ?_, ?_⟩
  · rw [← flatMap_text_split cs, hsplit, List.flatMap_append, List.flatMap_cons]
  · rw [hstart, Nat.zero_add]
  · have hfits := hfit.2.1
    rwa [List.append_nil] at hfits

/-! ## Replacing what stands behind -/

theorem mayReplace_nil (F : List Char) : MayReplace F [] where
  head h := by cases h
  base h := by cases h
  fraction h := by cases h

theorem MayReplace.append (h : MayReplace F F') (cs : List Char) :
    MayReplace (cs ++ F) (cs ++ F') where
  head hjoins := by
    rcases cs with _ | ⟨c, cs⟩
    · exact h.head hjoins
    · rfl
  base := h.startsBase_append cs
  fraction := startsFraction_append_imp h.toMayAdjoin cs

theorem tolerates_nil (F : List Char) (s : Segment) : s.Tolerates F [] := by
  unfold Tolerates
  split
  · exact fun h => nomatch h
  · exact fun h => nomatch h
  · rfl
  · exact ⟨fun h => (nomatch h), fun _ => .inl rfl, fun _ h => nomatch h⟩
  · exact fun _ h => nomatch h
  · exact fun h => nomatch h
  · exact fun h => nomatch h
  · exact .inl rfl
  · trivial
  · trivial

theorem Fits.congr (h : s.Fits F) (hF' : MayReplace F F') (hs : s.Tolerates F F') : s.Fits F' := by
  obtain ⟨c, cs, htext, hmeasure⟩ := h
  refine ⟨c, cs, htext, measure_append_congr hF'.toMayAdjoin (fun _ _ => hF'.base) ?_ hmeasure⟩
  rwa [← htext]

/-- Only a comment without its closing mark is left open, and it takes all there is. -/
theorem length_of_unclosed (c : Char) (cs : List Char) (h : (measure c cs).1 = .comment false) :
    (measure c cs).2 = cs.length := by
  have hslash : c = '/' := by
    have := measure_opens c cs
    rw [h] at this
    exact beq_iff_eq.1 this
  subst hslash
  have hmark : measureMark '/' cs = (.lexeme .operator, 0) := rfl
  revert h
  fun_cases measure '/' cs <;> simp_all

theorem Fits.eq_nil_of_unclosed (h : s.Fits F) (hs : s.kind = .comment false) : F = [] := by
  obtain ⟨c, cs, -, hmeasure⟩ := h
  have hlength := length_of_unclosed c (cs ++ F) (by rw [hmeasure, hs])
  rw [hmeasure, List.length_append] at hlength
  exact List.eq_nil_of_length_eq_zero (by omega)

theorem Fits.text_ne_nil (h : s.Fits F) : s.text ≠ [] := by
  obtain ⟨c, cs, htext, -⟩ := h
  rw [htext]
  exact List.cons_ne_nil c cs

/-- What stands behind some segments can be replaced, if the last of them tolerates that. -/
theorem Fit.congr (h : Fit F segments) (hF' : MayReplace F F')
    (hlast : ∀ s, segments.getLast? = some s → s.Tolerates F F') : Fit F' segments := by
  induction segments with
  | nil => trivial
  | cons s rest ih =>
    refine ⟨?_, ih h.2 fun u hu => hlast u ?_⟩
    · rcases rest with _ | ⟨u, rest⟩
      · exact h.1.congr hF' (hlast s rfl)
      · -- what stands behind this segment starts with the next one, as before
        have hne : (u :: rest).flatMap text ≠ [] := by
          rw [List.flatMap_cons]
          exact List.append_ne_nil_of_left_ne_nil h.2.1.text_ne_nil _
        refine h.1.congr (hF'.append _) (tolerates_of_head? ?_ fun hs => ?_)
        · rcases hcs : (u :: rest).flatMap text with _ | ⟨c, cs⟩
          · exact absurd hcs hne
          · rfl
        · exact hne (List.append_eq_nil_iff.1 (h.1.eq_nil_of_unclosed hs)).1
    · rcases rest with _ | ⟨v, rest⟩
      · cases hu
      · rw [List.getLast?_cons_cons]
        exact hu

/-- Segments that were cut off a text are cut off alone. -/
theorem Fit.nil (h : Fit F segments) : Fit [] segments :=
  h.congr (mayReplace_nil F) fun s _ => tolerates_nil F s

theorem Fit.split_flatMap_text (h : Fit F segments) : split (segments.flatMap text) = segments := by
  have := h.nil.split_append
  rwa [List.append_nil, split, List.append_nil] at this

end Segment

open Segment

/-! ## Tokens of a text, piece by piece -/

/-- Segments that are cut off in front of a text make their tokens in front of those of the text. -/
theorem lexemes_append_of_fit {F : List Char} {segments : List Segment} (h : Fit F segments) :
    lexemes (segments.flatMap text ++ F) = Segment.lexemes F segments ++ lexemes F := by
  rw [lexemes, h.split_append, Segment.lexemes_append, flatMap_text_split, List.append_nil]
  rfl

/-- A token of a text is cut off the text as a segment. -/
theorem exists_fits_of_mem_lexemes {cs : List Char} {t : Lexeme Site} (ht : t ∈ lexemes cs) :
    ∃ s F, Segment.Fits F s ∧ s.kind.tokenKind? = some t.kind ∧ t.place.text = s.text := by
  obtain ⟨before, after, hmem⟩ := List.append_of_mem ht
  obtain ⟨segments₁, s, segments₂, hsplit, hkind, hplace, -, -⟩ := Segment.exists_of_lexemes_eq hmem
  have hfits := Segment.fit_split cs
  rw [hsplit, Segment.fit_append] at hfits
  exact ⟨s, _, hfits.2.1, hkind, by rw [hplace, Site.text_mk_append]⟩

/-- The token of a segment in front of a text, and those of the text. -/
theorem lexemes_append_of_fits {s : Segment} {F : List Char} (h : s.Fits F) :
    lexemes (s.text ++ F) =
      (s.kind.tokenKind?.map fun kind => ⟨kind, ⟨s.text ++ F, F⟩⟩).toList ++ lexemes F := by
  have hfit : Fit F [s] := ⟨h, trivial⟩
  have hlexemes := lexemes_append_of_fit hfit
  rw [List.flatMap_singleton] at hlexemes
  rw [hlexemes]
  simp only [Segment.lexemes, List.flatMap_nil, List.nil_append]
  rcases s.kind.tokenKind? <;> rfl

/-- Whether a segment of some kind is reported by a lexical diagnostic. -/
def SegmentKind.isFault : SegmentKind → Bool
  | .comment false | .malformed _ => true
  | .blank | .comment true | .directive | .lexeme _ => false

theorem SegmentKind.diagnostic?_eq_none_iff {kind : SegmentKind} {span : Span} :
    kind.diagnostic? span = none ↔ kind.isFault = false := by
  fun_cases SegmentKind.diagnostic? span kind <;> simp [isFault]

/-- What is read of a text: its tokens, and that nothing in it is malformed. -/
structure Reads (cs : List Char) (ts : List (Lexeme Site)) : Prop where
  tokens : lexemes cs = ts
  faultless : ∀ s ∈ split cs, s.kind.isFault = false

theorem diagnosticsFrom_eq_nil_iff {start : Nat} {segments : List Segment} :
    diagnosticsFrom start segments = [] ↔ ∀ s ∈ segments, s.kind.isFault = false := by
  induction segments generalizing start with
  | nil => simp [diagnosticsFrom]
  | cons s rest ih =>
    rw [diagnosticsFrom, List.append_eq_nil_iff, ih, List.forall_mem_cons,
      ← SegmentKind.diagnostic?_eq_none_iff, Option.toList_eq_nil_iff]

/-- A source without lexical diagnostics is one without malformed text. -/
theorem diagnostics_eq_nil_iff {source : String} :
    (Lexing.ofSource source).diagnostics = [] ↔ ∀ s ∈ split source.toList, s.kind.isFault = false :=
  diagnosticsFrom_eq_nil_iff

/-- The cut of a text with a blank in front: the blank joins those that stand there already. -/
theorem split_cons_blank {c : Char} (hc : Text.isAsciiBlank c = true) (F : List Char) :
    ∃ blanks rest, split (c :: F) = ⟨.blank, blanks⟩ :: rest ∧
      (split F = rest ∨ ∃ blanks', split F = ⟨.blank, blanks'⟩ :: rest) := by
  have hmeasure : ∀ d ds, Text.isAsciiBlank d = true →
      Segment.measure d ds = (.blank, run Text.isAsciiBlank ds) := by
    intro d ds hd
    rw [Segment.measure, if_pos hd]
  rcases F with _ | ⟨d, F⟩
  · exact ⟨[c], [], by rw [split, hmeasure c _ hc]; simp [run, split], .inl (by rw [split])⟩
  · by_cases hd : Text.isAsciiBlank d = true
    · refine ⟨c :: (d :: F).take (run Text.isAsciiBlank F + 1),
        split (F.drop (run Text.isAsciiBlank F)),
        ?_, .inr ⟨d :: F.take (run Text.isAsciiBlank F), ?_⟩⟩
      · rw [split, hmeasure c _ hc, run_cons_of_pos hd]
        rfl
      · rw [split, hmeasure d _ hd]
    · refine ⟨[c], split (d :: F), ?_, .inl rfl⟩
      rw [split, hmeasure c _ hc, run_cons_of_neg (by simpa using hd)]
      rfl

theorem lexemes_cons_blank {c : Char} (hc : Text.isAsciiBlank c = true) (F : List Char) :
    lexemes (c :: F) = lexemes F := by
  obtain ⟨blanks, rest, hsplit, hF⟩ := split_cons_blank hc F
  rw [lexemes, lexemes, hsplit]
  rcases hF with hF | ⟨blanks', hF⟩ <;> rw [hF] <;> rfl

/-- Blanks in front of a text make no token. -/
theorem lexemes_append_of_blank {cs : List Char} (hcs : ∀ c ∈ cs, Text.isAsciiBlank c = true)
    (F : List Char) :
    lexemes (cs ++ F) = lexemes F := by
  induction cs with
  | nil => rfl
  | cons c cs ih =>
    rw [List.cons_append, lexemes_cons_blank (hcs c (List.mem_cons_self ..)),
      ih fun d hd => hcs d (List.mem_cons_of_mem _ hd)]

namespace Reads

variable {F : List Char} {ts : List (Lexeme Site)}

theorem nil : Reads [] [] := ⟨by rw [lexemes, split]; rfl, by simp [split]⟩

/-- Segments in front of a text. -/
theorem segments {segments : List Segment} (h : Reads F ts) (hfit : Fit F segments)
    (hfault : ∀ s ∈ segments, s.kind.isFault = false) :
    Reads (segments.flatMap text ++ F) (Segment.lexemes F segments ++ ts) where
  tokens := by rw [lexemes_append_of_fit hfit, h.tokens]
  faultless s hs := by
    rw [hfit.split_append] at hs
    rcases List.mem_append.1 hs with hs | hs
    · exact hfault s hs
    · exact h.faultless s hs

/-- A text in front of another: its tokens are those it has alone. -/
theorem append {cs : List Char} {us : List (Lexeme Site)} (hcs : Reads cs us) (h : Reads F ts)
    (hF : MayReplace [] F) (hlast : ∀ s, (split cs).getLast? = some s → s.Tolerates [] F) :
    Reads (cs ++ F) (us.map (Lexeme.map (Site.append F)) ++ ts) := by
  have hfit : Fit F (split cs) := (fit_split cs).congr hF hlast
  have := h.segments hfit hcs.faultless
  rwa [flatMap_text_split, ← List.nil_append F, lexemes_append_behind, List.nil_append,
    ← lexemes, hcs.tokens] at this

/-- A lexeme in front of a text. -/
theorem lexeme {c : Char} {cs : List Char} {kind : TokenKind}
    (hmeasure : Segment.measure c (cs ++ F) = (.lexeme kind, cs.length)) (h : Reads F ts) :
    Reads (c :: cs ++ F) (⟨kind, ⟨c :: cs ++ F, F⟩⟩ :: ts) := by
  have hfit : Fit F [⟨.lexeme kind, c :: cs⟩] := ⟨⟨c, cs, rfl, hmeasure⟩, trivial⟩
  have := h.segments hfit (by simp [SegmentKind.isFault])
  simpa [Segment.lexemes, SegmentKind.tokenKind?] using this

/-- A comment or a directive in front of a text. -/
theorem skip {c : Char} {cs : List Char} {kind : SegmentKind}
    (hmeasure : Segment.measure c (cs ++ F) = (kind, cs.length)) (hkind : kind.tokenKind? = none)
    (hfault : kind.isFault = false) (h : Reads F ts) : Reads (c :: cs ++ F) ts := by
  have hfit : Fit F [⟨kind, c :: cs⟩] := ⟨⟨c, cs, rfl, hmeasure⟩, trivial⟩
  have := h.segments hfit (by simpa using hfault)
  simpa [Segment.lexemes, hkind] using this

/-- A mark of one character in front of a text. -/
theorem mark {c : Char} {kind : TokenKind} (hc : ∀ G, Segment.measure c G = (.lexeme kind, 0))
    (h : Reads F ts) : Reads (c :: F) (⟨kind, ⟨c :: F, F⟩⟩ :: ts) := by
  show Reads (c :: [] ++ F) (⟨kind, ⟨c :: [] ++ F, F⟩⟩ :: ts)
  exact h.lexeme (hc _)

/-- A blank in front of a text. -/
theorem blank {c : Char} (hc : Text.isAsciiBlank c = true) (h : Reads F ts) :
    Reads (c :: F) ts := by
  obtain ⟨blanks, rest, hsplit, hF⟩ := split_cons_blank hc F
  refine ⟨(lexemes_cons_blank hc F).trans h.tokens, fun s hs => ?_⟩
  have hrest : ∀ s ∈ rest, s.kind.isFault = false := by
    rcases hF with hF | ⟨blanks', hF⟩
    · exact hF ▸ h.faultless
    · exact fun s hs => h.faultless s (hF ▸ List.mem_cons_of_mem _ hs)
  rw [hsplit] at hs
  rcases List.mem_cons.1 hs with rfl | hs
  · rfl
  · exact hrest s hs

/-- Blanks in front of a text. -/
theorem blanks {cs : List Char} (hcs : ∀ c ∈ cs, Text.isAsciiBlank c = true) (h : Reads F ts) :
    Reads (cs ++ F) ts := by
  induction cs with
  | nil => exact h
  | cons c cs ih =>
    exact blank (hcs c (List.mem_cons_self ..)) (ih fun d hd => hcs d (List.mem_cons_of_mem _ hd))

end Reads

end VerilogScaffold
