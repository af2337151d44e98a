import Mathlib.Data.List.Forall2
import VerilogScaffold.Proofs.Tiling

/-!
# Lexical errors and error tokens

Malformed text is a token of its own, and is reported where it stands. Each error token therefore
goes with one diagnostic, in order, and the code of the diagnostic says whether a string was opened
(`Diagnostic.Reports`). A comment that is not closed is reported too, but is no token: it takes all
that is left of the source, so nothing is read behind it (`Diagnostic.IsOpenComment`).

Both are read off the events of a source. All events are tokens, except that the last may be such a
comment (`Segment.exists_unclosed`).
-/

namespace VerilogScaffold

open Text Segment

/-- A diagnostic about an error token, which says whether the token opens a string. -/
structure Diagnostic.Reports (source : String) (d : Diagnostic) (t : Token) : Prop where
  span : d.span = t.span
  malformed : d.code = ⟨.error, 102⟩ ∨ d.code = ⟨.error, 103⟩
  opensString : ∃ text, t.span.text? source = some text ∧
    (d.code = ⟨.error, 102⟩ ↔ text.toList.head? = some '"')

/-- A diagnostic about a comment that is not closed, behind all tokens of the source. -/
structure Diagnostic.IsOpenComment (source : String) (tokens : List Token)
    (d : Diagnostic) : Prop where
  code : d.code = ⟨.error, 101⟩
  opens : ∃ text, d.span.text? source = some text ∧ ['/', '*'] <+: text.toList
  behind : ∀ t ∈ tokens, t.kind ≠ .eof → t.span.stop.toNat ≤ d.span.start.toNat
  stop : d.span.stop.toNat = source.utf8ByteSize

/-! ## Malformed text and open comments -/

namespace Segment

variable {s : Segment} {F : List Char}

theorem measure_quote (cs : List Char) : measure '"' cs = measureString cs := rfl

/-- What opens a string starts with a quote, and other malformed text does not. -/
theorem Fits.unterminatedString_iff {fault : LexicalFault} (h : s.Fits F)
    (hs : s.kind = .malformed fault) :
    fault = .unterminatedString ↔ s.text.head? = some '"' := by
  obtain ⟨c, cs, htext, hmeasure⟩ := h
  have hopens := measure_opens c (cs ++ F)
  rw [htext, List.head?_cons, Option.some_inj]
  rw [hmeasure, hs] at hopens
  constructor
  · rintro rfl
    exact beq_iff_eq.1 hopens
  · rintro rfl
    rw [measure_quote, measureString, hs] at hmeasure
    have hkind := congrArg Prod.fst hmeasure
    dsimp only at hkind
    split at hkind
    · cases hkind
    · cases hkind
      rfl

/-- A comment that is not closed starts with its opening mark. -/
theorem Fits.prefix_of_unclosed (h : s.Fits F) (hs : s.kind = .comment false) :
    ['/', '*'] <+: s.text := by
  have hslash := h.head?_of_comment hs
  obtain ⟨c, cs, htext, hmeasure⟩ := h
  obtain rfl : c = '/' := by simpa [htext] using hslash
  rw [measure_slash, hs] at hmeasure
  rw [htext]
  split at hmeasure
  · cases (Prod.mk.inj hmeasure).1
  · split at hmeasure
    · rename_i hblock
      split at hmeasure
      · cases (Prod.mk.inj hmeasure).1
      · have hlength := (Prod.mk.inj hmeasure).2
        obtain rfl : F = [] := by simpa using hlength
        obtain ⟨body, rfl⟩ := exists_cons_of_startsWith hblock (by rintro rfl; cases hblock)
        exact ⟨body, rfl⟩
    · cases (Prod.mk.inj hmeasure).1

/-- No segments make up an empty text. -/
theorem Fit.eq_nil {segments : List Segment} (h : Fit F segments)
    (hempty : segments.flatMap text = []) :
    segments = [] := by
  cases segments with
  | nil => rfl
  | cons s rest =>
    rw [List.flatMap_cons, List.append_eq_nil_iff] at hempty
    exact absurd hempty.1 h.1.text_ne_nil

/-- All events are tokens, except that the last may be a comment that is not closed. -/
theorem exists_unclosed {segments : List Segment} (h : Fit [] segments) (start : Nat) :
    ∃ tokens unclosed, eventsFrom start segments = tokens ++ Option.toList unclosed ∧
      (∀ e ∈ tokens, e.segment.kind ≠ .comment false) ∧
      ∀ e ∈ unclosed, e.segment.kind = .comment false ∧
        e.place.stop = start + Text.byteLength (segments.flatMap text) := by
  induction segments generalizing start with
  | nil => exact ⟨[], none, rfl, by simp, by simp⟩
  | cons s rest ih =>
    obtain ⟨hs, hrest⟩ := h
    have hstop : start + s.byteLength + Text.byteLength (rest.flatMap text) =
        start + Text.byteLength ((s :: rest).flatMap text) := by
      rw [List.flatMap_cons, byteLength_append, Nat.add_assoc]
      rfl
    by_cases hopen : s.kind = .comment false
    · obtain rfl : rest = [] :=
        hrest.eq_nil (List.append_eq_nil_iff.1 (hs.eq_nil_of_unclosed hopen)).1
      have hloud : s.isSilent = false := by rw [isSilent, hopen]
      refine ⟨[], some ⟨start, s⟩, ?_, by simp, ?_⟩
      · rw [eventsFrom, if_neg (by simp [hloud])]
        rfl
      · rintro e ⟨⟩
        exact ⟨hopen, hstop⟩
    · obtain ⟨tokens, unclosed, hevents, htokens, hunclosed⟩ := ih hrest (start + s.byteLength)
      rw [hstop] at hunclosed
      rw [eventsFrom]
      split
      · exact ⟨tokens, unclosed, hevents, htokens, hunclosed⟩
      · refine ⟨⟨start, s⟩ :: tokens, unclosed, ?_, ?_, hunclosed⟩
        · rw [hevents]
          rfl
        · intro e he
          rcases List.mem_cons.1 he with rfl | he
          · exact hopen
          · exact htokens e he

end Segment

/-! ## Events and what is said about them -/

/-- Two lists that are read off one list are related entry by entry, if each of its entries gives
related ones or none at all. -/
theorem forall₂_filterMap {α β γ : Type} {R : β → γ → Prop} {f : α → Option β}
    {g : α → Option γ} {as : List α}
    (h : ∀ a ∈ as, Option.Rel R (f a) (g a)) :
    List.Forall₂ R (as.filterMap f) (as.filterMap g) := by
  induction as with
  | nil => exact .nil
  | cons a as ih =>
    obtain ⟨hrel, hrest⟩ := List.forall_mem_cons.1 h
    rw [List.filterMap_cons, List.filterMap_cons]
    generalize f a = b, g a = c at hrel
    cases hrel with
    | none => exact ih hrest
    | some hR => exact .cons hR (ih hrest)

namespace Event

variable {source : String} {e : Event}

/-- The error token of an event, if it is malformed text. -/
def errorToken? (e : Event) : Option Token :=
  match e.segment.kind with
  | .malformed _ => some ⟨.error, e.place.span⟩
  | .blank | .comment _ | .directive | .lexeme _ => none

/-- The text of an event's place is the text of its segment. -/
theorem text?_place (ha : Addressable source) (h : e ∈ VerilogScaffold.eventsFrom 0 source.toList) :
    e.place.span.text? source = some (String.ofList e.segment.text) := by
  obtain ⟨front, behind, hsource, hstart, -⟩ := exists_fits_of_mem_eventsFrom h
  have hslice := slice?_append front e.segment.text behind
  rw [← hsource, ← hstart] at hslice
  rw [(liesOn_of_mem h).1.text?_span ha]
  exact congrArg (Option.map String.ofList) hslice

/-- Only malformed text makes an error token. -/
theorem filter_lexeme? {cs : List Char} (h : e ∈ VerilogScaffold.eventsFrom 0 cs) :
    (e.lexeme?.map (Lexeme.map Stretch.span)).filter (·.kind = .error) = e.errorToken? := by
  obtain ⟨_, _, -, -, hfits⟩ := exists_fits_of_mem_eventsFrom h
  unfold lexeme? errorToken?
  rcases hkind : e.segment.kind with _ | closed | _ | kind | fault
  · rfl
  · rfl
  · rfl
  · have hwritten : kind ≠ .error := by
      rintro rfl
      cases hfits.isWritten hkind
    simpa [SegmentKind.tokenKind?, Option.filter, Lexeme.map] using hwritten
  · rfl

/-- An event is reported where it makes an error token, unless it is a comment that is not
closed. -/
theorem reports (ha : Addressable source) (h : e ∈ VerilogScaffold.eventsFrom 0 source.toList)
    (hclosed : e.segment.kind ≠ .comment false) :
    Option.Rel (Diagnostic.Reports source) e.diagnostic? e.errorToken? := by
  obtain ⟨_, _, -, -, hfits⟩ := exists_fits_of_mem_eventsFrom h
  have htext := text?_place ha h
  unfold diagnostic? errorToken?
  rcases hkind : e.segment.kind with _ | closed | _ | kind | fault
  · exact .none
  · cases closed with
    | false => exact absurd hkind hclosed
    | true => exact .none
  · exact .none
  · exact .none
  · have hquote := hfits.unterminatedString_iff hkind
    have hother : (⟨.error, 103⟩ : DiagnosticCode) ≠ ⟨.error, 102⟩ := by decide
    rw [← String.toList_ofList (l := e.segment.text)] at hquote
    cases fault with
    | unterminatedString => exact .some ⟨rfl, .inl rfl, _, htext, iff_of_true rfl (hquote.1 rfl)⟩
    | emptyEscapedName =>
      exact .some ⟨rfl, .inr rfl, _, htext, iff_of_false hother fun h => nomatch hquote.2 h⟩
    | unrecognized c =>
      exact .some ⟨rfl, .inr rfl, _, htext, iff_of_false hother fun h => nomatch hquote.2 h⟩

/-- A comment that is not closed is no token. -/
theorem lexeme?_of_unclosed (h : e.segment.kind = .comment false) : e.lexeme? = none := by
  unfold lexeme?
  rw [h]
  rfl

/-- A comment that is not closed is reported as one, behind all tokens. -/
theorem isOpenComment (ha : Addressable source) {before : List Event}
    (hevents : VerilogScaffold.eventsFrom 0 source.toList = before ++ [e])
    (h : e.segment.kind = .comment false) (hstop : e.place.stop = Text.byteLength source.toList) :
    ∃ d, e.diagnostic? = some d ∧ d.IsOpenComment source (Lexing.ofSource source).tokens := by
  have he : e ∈ VerilogScaffold.eventsFrom 0 source.toList := by
    rw [hevents]
    exact List.mem_append_right before (List.mem_singleton_self e)
  have hlies := (liesOn_of_mem he).1
  obtain ⟨_, _, -, -, hfits⟩ := exists_fits_of_mem_eventsFrom he
  refine ⟨.error 101 "unterminated block comment" e.place.span,
    by rw [diagnostic?, h]; rfl, rfl, ?_, ?_, ?_⟩
  · refine ⟨_, text?_place ha he, ?_⟩
    rw [String.toList_ofList]
    exact hfits.prefix_of_unclosed h
  · intro t ht hkind
    rcases mem_tokens_ofSource.1 ht with ⟨u, hu, rfl⟩ | rfl
    · obtain ⟨other, hother, hlexeme⟩ := List.mem_filterMap.1 hu
      -- the token is of another event, and events follow each other
      have hbefore : other ∈ before := by
        rw [hevents] at hother
        rcases List.mem_append.1 hother with hother | hother
        · exact hother
        · obtain rfl := List.mem_singleton.1 hother
          rw [lexeme?_of_unclosed h] at hlexeme
          cases hlexeme
      have hpairwise := Segment.eventsFrom_pairwise 0 (split source.toList)
      change (VerilogScaffold.eventsFrom 0 source.toList).Pairwise _ at hpairwise
      rw [hevents] at hpairwise
      have hle := (List.pairwise_append.1 hpairwise).2.2 other hbefore e (List.mem_singleton_self e)
      show u.place.span.stop.toNat ≤ e.place.span.start.toNat
      rw [place_of_lexeme? hlexeme, (liesOn_of_mem hother).1.toNat_stop ha, hlies.toNat_start ha]
      exact hle
    · exact absurd rfl hkind
  · show e.place.span.stop.toNat = source.utf8ByteSize
    rw [hlies.toNat_stop ha, hstop, byteLength_toList]

end Event

/-! ## Sources -/

namespace Lexing

variable {source : String}

/-- The error tokens of a source are those of its events. -/
theorem errorTokens_ofSource (source : String) :
    (ofSource source).tokens.filter
    (·.kind = .error) = (eventsFrom 0 source.toList).filterMap Event.errorToken? := by
  rw [tokens_ofSource, List.filter_append, List.filter_singleton, lexemesFrom, List.map_filterMap,
    List.filter_filterMap]
  rw [List.filterMap_congr fun e he => Event.filter_lexeme? he]
  exact List.append_nil _

/-- **Lexical errors and error tokens correspond.** A source is read to its end. What is reported of
it falls into the diagnostics about its error tokens, one for each of them and in their order, and
one more behind these if a comment is not closed. All are errors. -/
theorem errors (ha : Addressable source) :
    ∃ lexing errors unclosed, ofSource? source = some lexing ∧
      lexing.diagnostics = errors ++ Option.toList unclosed ∧
      List.Forall₂ (Diagnostic.Reports source) errors (lexing.tokens.filter (·.kind = .error)) ∧
      (∀ d ∈ unclosed, d.IsOpenComment source lexing.tokens) ∧
      ∀ d ∈ lexing.diagnostics, d.severity = .error := by
  obtain ⟨tokens, unclosed, hevents, hclosed, hunclosed⟩ :=
    exists_unclosed (fit_split source.toList) 0
  change eventsFrom 0 source.toList = _ at hevents
  rw [flatMap_text_split, Nat.zero_add] at hunclosed
  have htokens : ∀ e ∈ tokens, e ∈ eventsFrom 0 source.toList := by
    intro e he
    rw [hevents]
    exact List.mem_append_left _ he
  have hreports : List.Forall₂ (Diagnostic.Reports source) (tokens.filterMap Event.diagnostic?)
      (tokens.filterMap Event.errorToken?) := by
    apply forall₂_filterMap
    intro e he
    exact Event.reports ha (htokens e he) (hclosed e he)
  have hseverity : ∀ d ∈ (ofSource source).diagnostics, d.severity = .error := by
    intro d hd
    exact (isError_of_mem hd).1
  cases unclosed with
  | none =>
    refine ⟨ofSource source, tokens.filterMap Event.diagnostic?, none, ofSource?_eq source, ?_,
      ?_, by simp, hseverity⟩
    · rw [diagnostics_ofSource, hevents, List.filterMap_append]
      rfl
    · rw [errorTokens_ofSource, hevents]
      simpa using hreports
  | some e =>
    obtain ⟨hopen, hstop⟩ := hunclosed e rfl
    obtain ⟨d, hd, hcomment⟩ := Event.isOpenComment ha hevents hopen hstop
    have hnone : e.errorToken? = none := by rw [Event.errorToken?, hopen]
    refine ⟨ofSource source, tokens.filterMap Event.diagnostic?, some d, ofSource?_eq source, ?_,
      ?_, ?_, hseverity⟩
    · rw [diagnostics_ofSource, hevents, List.filterMap_append]
      simp [hd]
    · rw [errorTokens_ofSource, hevents, List.filterMap_append]
      simpa [hnone] using hreports
    · rintro _ ⟨⟩
      exact hcomment

/-- A character that starts no lexeme, a string that its line does not close, a backslash without a
name, and a comment that is not closed. -/
theorem errors_mixed :
    Addressable "é \"a\n\\ /* b" ∧
      ∃ lexing errors unclosed, ofSource? "é \"a\n\\ /* b" = some lexing ∧
        lexing.diagnostics.map Diagnostic.span = [⟨0, 2⟩, ⟨3, 5⟩, ⟨6, 7⟩, ⟨8, 12⟩] ∧
        lexing.diagnostics = errors ++ Option.toList unclosed ∧
        List.Forall₂ (Diagnostic.Reports "é \"a\n\\ /* b") errors
          (lexing.tokens.filter (·.kind = .error)) ∧
        ∀ d ∈ unclosed, d.IsOpenComment "é \"a\n\\ /* b" lexing.tokens := by
  have ha : Addressable "é \"a\n\\ /* b" := by decide
  obtain ⟨lexing, errors, unclosed, hlexing, hdiagnostics, hreports, hunclosed, -⟩ := errors ha
  have hspans : lexing.diagnostics.map Diagnostic.span = [⟨0, 2⟩, ⟨3, 5⟩, ⟨6, 7⟩, ⟨8, 12⟩] := by
    rw [ofSource?_eq] at hlexing
    obtain rfl := Option.some.inj hlexing
    cbv
  exact ⟨ha, lexing, errors, unclosed, hlexing, hspans, hdiagnostics, hreports, hunclosed⟩

end Lexing

end VerilogScaffold
