import Mathlib
import VerilogScaffold.Diagnostic.Report
import VerilogScaffold.Proofs.Place
import VerilogScaffold.Proofs.Reading

/-!
# Extraction is safe

On every source whose offsets fit the words of a span, however malformed, no step of an extraction
or of a report on it fails: no bytes are cut out past the end, no token is asked for outside the
tokens, no depth goes below zero, no loop goes round for ever, and no text is cut off a character
boundary.

All of it rests on where diagnostics stand. Each is about a token or an unclosed comment of the
source, so it marks a piece of the source that is not empty (`Span.Marks`); only the one that says
that there is no module stands nowhere. A piece that is marked can be shown.

A range is cut out from its first to its last bracket, closed or not, and whether or not a port is
declared behind it. That text is there because the tokens of a source lie on it in order: the piece
from one token to any later one can be cut out.
-/

namespace VerilogScaffold

/-- A span that marks a piece of a source: one that is not empty and cuts no character in two. -/
structure Span.Marks (s : Span) (source : String) : Prop where
  start : Text.IsBoundary s.start.toNat source.toList
  stop : Text.IsBoundary s.stop.toNat source.toList
  lt : s.start.toNat < s.stop.toNat
  le : s.stop.toNat ≤ source.utf8ByteSize

namespace Diagnostic

/-- A diagnostic marks a piece of the source, unless it says that there is no module. -/
def Placed (d : Diagnostic) (source : String) : Prop :=
  d.span = .dummy ∧ d.code = ⟨.error, 201⟩ ∨ d.span.Marks source

end Diagnostic

/-- A stretch that lies on a text and is not empty. -/
def Stretch.Covers (p : Stretch) (cs : List Char) : Prop := p.LiesOn cs ∧ p.start < p.stop

variable {source : String}

theorem Stretch.Covers.marks {p : Stretch} (h : p.Covers source.toList) (ha : Addressable source) :
    p.span.Marks source := by
  have hstart := h.1.toNat_start ha
  have hstop := h.1.toNat_stop ha
  refine ⟨hstart ▸ h.1.start, hstop ▸ h.1.stop, ?_, ?_⟩
  · rw [hstart, hstop]
    exact h.2
  · rw [hstop, ← Text.byteLength_toList]
    exact h.1.stop.le

/-! ## Where diagnostics stand -/

theorem Lexing.marks (ha : Addressable source) {d : Diagnostic}
    (hd : d ∈ (ofSource source).diagnostics) : d.span.Marks source := by
  obtain ⟨-, -, e, he, hspan⟩ := isError_of_mem hd
  rw [hspan]
  exact Stretch.Covers.marks (Event.liesOn_of_mem he) ha

/-- The diagnostics for unclosed blocks are about their keywords. -/
theorem Stripped.exists_event {d : Diagnostic}
    (hd : d ∈ (ofTokens (Lexing.ofSource source).tokens).diagnostics) :
    ∃ e ∈ eventsFrom 0 source.toList, d.span = e.place.span := by
  rw [ofTokens_ofSource, diagnostics, unclosed_append, List.append_nil] at hd
  obtain ⟨u, hu, rfl⟩ := List.mem_map.1 hd
  obtain ⟨v, hv, rfl⟩ := List.mem_map.1 hu
  obtain ⟨e, he, hplace⟩ :=
    exists_event_of_mem_lexemesFrom ((tokens_sublist _).subset (mem_unclosed hv).1)
  exact ⟨e, he, congrArg Stretch.span hplace⟩

section

variable {p : Stretch → Prop}

/-- The diagnostic of an error is about its token. -/
theorem ExtractError.exists_place {e : ExtractError Stretch} (he : e.Forall p) :
    (e.map Stretch.span).diagnostic.span = .dummy ∧
      (e.map Stretch.span).diagnostic.code = ⟨.error, 201⟩ ∨
      ∃ place, p place ∧ (e.map Stretch.span).diagnostic.span = place.span := by
  cases e with
  | noModule => exact .inl ⟨rfl, rfl⟩
  | missingEndmodule opener => exact .inr ⟨opener.place, he, rfl⟩
  | missingName found => exact .inr ⟨found.place, he, rfl⟩

namespace Outline

variable {o : Outline Stretch} {ds : List Diagnostic} {d : Diagnostic}

theorem exists_place_of_nameDiagnostics? (ho : o.Forall p)
    (hds : (o.map Stretch.span).nameDiagnostics? source = some ds) (hd : d ∈ ds) :
    ∃ place, p place ∧ d.span = place.span := by
  obtain ⟨onName, rfl, honName⟩ := exists_onName hds
  exact ⟨o.name.place, ho.1, (honName d (Option.mem_toList.1 hd)).2.2⟩

theorem exists_place_of_remarkDiagnostics? (ho : o.Forall p)
    (hds : (o.map Stretch.span).remarkDiagnostics? source = some ds) (hd : d ∈ ds) :
    ∃ place, p place ∧ d.span = place.span := by
  obtain ⟨r, hr, hd⟩ := exists_remark hds hd
  rw [remarks_map] at hr
  obtain ⟨r, hmem, rfl⟩ := List.mem_map.1 hr
  refine ⟨r.token.place, (forall_of_mem_remarks ho hmem).token, ?_⟩
  rw [(Remark.isWarning hd).2.2, Remark.token_map]
  rfl

end Outline

end

namespace Extraction

/-- Every diagnostic of an extraction is about an event, unless it says that there is no module. -/
theorem exists_event {x : Extraction} (hx : ofSource? source = some x) {d : Diagnostic}
    (hd : d ∈ x.diagnostics) :
    d.span = .dummy ∧ d.code = ⟨.error, 201⟩ ∨ ∃ e ∈ eventsFrom 0 source.toList,
    d.span = e.place.span := by
  have hearly : d ∈ earlyDiagnostics source →
      ∃ e ∈ eventsFrom 0 source.toList, d.span = e.place.span := by
    intro hd
    rcases List.mem_append.1 hd with hd | hd
    · exact (Lexing.isError_of_mem hd).2.2
    · exact Stripped.exists_event hd
  let ofEvent (place : Stretch) : Prop := ∃ e ∈ eventsFrom 0 source.toList, place = e.place
  have htokens : ∀ t ∈ (Stripped.ofText source.toList).tokens, ofEvent t.place :=
    fun t ht => exists_event_of_mem_lexemesFrom ((Stripped.tokens_sublist _).subset ht)
  have hplace : (∃ place, ofEvent place ∧ d.span = place.span) →
      ∃ e ∈ eventsFrom 0 source.toList, d.span = e.place.span := by
    rintro ⟨place, ⟨e, he, rfl⟩, hspan⟩
    exact ⟨e, he, hspan⟩
  -- the early diagnostics come first in either case; then the error, or what the outline remarks on
  rcases exists_parts hx with ⟨e, ho, rfl⟩ |
    ⟨o, signature, onName, onRest, ho, -, honName, honRest, rfl⟩
  · rcases List.mem_append.1 hd with hd | hd
    · exact .inr (hearly hd)
    · obtain rfl := List.mem_singleton.1 hd
      exact (ExtractError.exists_place (Outline.ofTokens_error_forall htokens ho)).imp id hplace
  · have hforall : o.Forall ofEvent := Outline.ofTokens_forall htokens ho
    rcases List.mem_append.1 hd with hd | hd
    · rcases List.mem_append.1 hd with hd | hd
      · exact .inr (hearly hd)
      · exact .inr (hplace (Outline.exists_place_of_nameDiagnostics? hforall honName hd))
    · exact .inr (hplace (Outline.exists_place_of_remarkDiagnostics? hforall honRest hd))

/-- Every diagnostic of an extraction is placed. -/
theorem placed (ha : Addressable source) {x : Extraction} (hx : ofSource? source = some x)
    {d : Diagnostic} (hd : d ∈ x.diagnostics) : d.Placed source := by
  refine (exists_event hx hd).imp id ?_
  rintro ⟨e, he, hspan⟩
  rw [hspan]
  exact Stretch.Covers.marks (Event.liesOn_of_mem he) ha

end Extraction

/-! ## Showing diagnostics -/

/-- A diagnostic that is placed on a text can be shown on a file with that text. -/
theorem Diagnostic.Placed.report?_eq {d : Diagnostic} (h : d.Placed source) (path : Path)
    (colour : Bool) : d.report? colour ⟨path, source⟩ = some (d.report colour ⟨path, source⟩) := by
  suffices hshown : ∃ text, d.report? colour ⟨path, source⟩ = some text by
    obtain ⟨text, htext⟩ := hshown
    rw [report, htext]
    rfl
  rw [report?]
  by_cases hdummy : d.span.isDummy
  · rw [if_pos hdummy]
    exact ⟨_, rfl⟩
  · rcases h with ⟨hspan, -⟩ | hmarks
    · exact absurd (by simp [Span.isDummy, hspan]) hdummy
    · have hlength : d.span.length? = some (d.span.stop.toNat - d.span.start.toNat) :=
        if_pos (UInt32.le_iff_toNat_le.2 (Nat.le_of_lt hmarks.lt))
      rw [if_neg hdummy, excerpt?, hlength, SourceFile.locate?_eq, SourceFile.lineText?_eq]
      exact ⟨_, rfl⟩

/-! ## The whole of an extraction -/

/-- Every token of a source lies on it, the end of the source too. -/
theorem Lexing.exists_liesOn {t : Token} (ht : t ∈ (ofSource source).tokens) :
    ∃ place : Stretch, place.LiesOn source.toList ∧ t.span = place.span := by
  have hend : Text.IsBoundary source.utf8ByteSize source.toList :=
    ⟨source.toList, [], by simp, by simp⟩
  rcases mem_tokens_ofSource.1 ht with ⟨u, hu, rfl⟩ | rfl
  · exact ⟨u.place, (liesOn_of_mem_lexemesFrom hu).1, rfl⟩
  · exact ⟨_, ⟨hend, hend, Nat.le_refl _⟩, rfl⟩

/-- The text from one token of a source to another can be cut out of it. -/
theorem Lexing.exists_text? (ha : Addressable source) {t u : Token}
    (ht : t ∈ (ofSource source).tokens) (hu : u ∈ (ofSource source).tokens) :
    ∃ text, (t.span.merge u.span).text? source = some text := by
  obtain ⟨place, hplace, hspan⟩ := exists_liesOn ht
  obtain ⟨place', hplace', hspan'⟩ := exists_liesOn hu
  rw [hspan, hspan']
  exact found_span ha place place' hplace hplace'

namespace Extraction

theorem ofSource?_eq (ha : Addressable source) : ofSource? source = some (ofSource source) := by
  obtain ⟨x, hx⟩ := exists_ofSource? ha
  rw [ofSource, hx]
  rfl

/-- No step of an extraction fails on an addressable source: what stands from one token to another
can be cut out of it, and the extraction answers. Each of its diagnostics marks a piece of the
source that is not empty, unless it says that there is no module, and no step of a report on one of
them fails. -/
theorem safe (ha : Addressable source) :
    (∀ t ∈ (Lexing.ofSource source).tokens, ∀ u ∈ (Lexing.ofSource source).tokens,
      ∃ text, (t.span.merge u.span).text? source = some text) ∧
      ofSource? source = some (ofSource source) ∧
      ∀ d ∈ (ofSource source).diagnostics, d.Placed source ∧
        ∀ path colour, d.report? colour ⟨path, source⟩ = some (d.report colour ⟨path, source⟩) := by
  refine ⟨fun t ht u hu => Lexing.exists_text? ha ht hu, ofSource?_eq ha, fun d hd => ?_⟩
  have hplaced : d.Placed source := placed ha (ofSource?_eq ha) hd
  exact ⟨hplaced, hplaced.report?_eq⟩

/-- A range that is never closed, in a clause without names. It ends with a string that holds a
character of two bytes. -/
theorem safe_openRange :
    Addressable "module m(input [3:\"é\"; endmodule" ∧
      (∃ text, ((⟨15, 16⟩ : Span).merge ⟨18, 22⟩).text? "module m(input [3:\"é\"; endmodule" =
        some text) ∧
      ofSource? "module m(input [3:\"é\"; endmodule" =
        some ⟨.ok (.ofName "m"), [.warning 303 "`input` declares no port names" ⟨9, 14⟩]⟩ ∧
      ∀ colour, ∃ text,
        (Diagnostic.warning 303 "`input` declares no port names" ⟨9, 14⟩).report? colour
          ⟨⟨"m.v"⟩, "module m(input [3:\"é\"; endmodule"⟩ = some text := by
  have ha : Addressable "module m(input [3:\"é\"; endmodule" := by decide
  have hx : ofSource "module m(input [3:\"é\"; endmodule" =
      ⟨.ok (.ofName "m"), [.warning 303 "`input` declares no port names" ⟨9, 14⟩]⟩ := by
    rw [ofSource, ofSource?_eq_ofLexing?]
    cbv
  have hopening : (Lexing.ofSource "module m(input [3:\"é\"; endmodule").tokens[4]? =
      some ⟨.opening .square, ⟨15, 16⟩⟩ := by cbv
  have hstring : (Lexing.ofSource "module m(input [3:\"é\"; endmodule").tokens[7]? =
      some ⟨.stringLiteral, ⟨18, 22⟩⟩ := by cbv
  obtain ⟨htext, hanswer, hshown⟩ := safe ha
  rw [hx] at hanswer hshown
  refine ⟨ha, ?_, hanswer, fun colour => ?_⟩
  · exact htext _ (List.mem_of_getElem? hopening) _ (List.mem_of_getElem? hstring)
  · exact ⟨_, (hshown _ (List.mem_singleton_self _)).2 ⟨"m.v"⟩ colour⟩

end Extraction

end VerilogScaffold
