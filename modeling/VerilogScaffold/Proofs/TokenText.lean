import VerilogScaffold.Proofs.ByteLexer
import VerilogScaffold.Proofs.Cut
import VerilogScaffold.Proofs.Safety

/-!
# Tokens are self-contained

Where a token ends is found by looking at what stands behind it: a tick makes digits the size of a
number, a word makes a backtick a directive, and a string that stays open goes on to the end of its
line. Taken by itself the text of a token is that token all the same (`Lexing.ofSource?_text`).
Nothing behind it was needed to read it, and nothing in it is read as something else once the rest
is gone.

It is so of any segment: what is cut off a source is cut off alone (`Segment.Fit.nil`), for the end
of a text never makes a segment longer, and ends what went on to the end of a line.
-/

namespace VerilogScaffold

open Segment

/-- What is reported of a segment that is a token: nothing, unless the token is an error. -/
theorem Segment.Fits.span_diagnostic? {s : Segment} {F : List Char} {kind : TokenKind}
    (h : s.Fits F) (hkind : s.kind.tokenKind? = some kind) (span : Span) :
    (s.kind.diagnostic? span).map Diagnostic.span = if kind = .error then some span else none := by
  rcases hs : s.kind with _ | closed | _ | written | fault <;> rw [hs] at hkind <;> cases hkind
  · have hwritten := h.isWritten hs
    have hne : kind ≠ .error := by
      rintro rfl
      cases hwritten
    rw [if_neg hne]
    rfl
  · rw [if_pos rfl]
    cases fault <;> rfl

namespace Lexing

/-- A text of `size` bytes that is one token and nothing else. An error is reported, about all of
it. -/
structure IsToken (l : Lexing) (kind : TokenKind) (size : Nat) : Prop where
  tokens : l.tokens = [⟨kind, .ofOffsets 0 size⟩, ⟨.eof, .ofOffsets size size⟩]
  reported : l.diagnostics.map Diagnostic.span = if kind = .error then [.ofOffsets 0 size] else []

/-- The text of a segment that is a token, read alone. -/
theorem isToken_ofSource {s : Segment} {F : List Char} {kind : TokenKind} (h : s.Fits F)
    (hkind : s.kind.tokenKind? = some kind) :
    (ofSource (String.ofList s.text)).IsToken kind (String.ofList s.text).utf8ByteSize := by
  have hsplit : split (String.ofList s.text).toList = [s] := by
    have := (show Fit F [s] from ⟨h, trivial⟩).split_flatMap_text
    rwa [List.flatMap_singleton, ← String.toList_ofList (l := s.text)] at this
  have hspan : s.spanAt 0 = .ofOffsets 0 (String.ofList s.text).utf8ByteSize := by
    rw [spanAt, byteLength, Nat.zero_add, ← Text.byteLength_toList, String.toList_ofList]
  have hend : 0 + s.byteLength = (String.ofList s.text).utf8ByteSize := by
    rw [byteLength, Nat.zero_add, ← Text.byteLength_toList, String.toList_ofList]
  refine ⟨?_, ?_⟩
  · rw [ofSource, hsplit, tokensFrom, hkind, tokensFrom, hspan, hend]
  · rw [ofSource, hsplit, diagnosticsFrom, diagnosticsFrom, List.append_nil, ← Option.toList_map,
      h.span_diagnostic? hkind, hspan]
    split <;> rfl

/-- **Tokens are self-contained.** A source is read to its end, and the text of each of its tokens,
read as a source of its own, is that token again and nothing else. -/
theorem ofSource?_text {source : String} (ha : Addressable source) :
    ∃ lexing, ofSource? source = some lexing ∧ ∀ t ∈ lexing.tokens, t.kind ≠ .eof →
      ∃ text alone, t.span.text? source = some text ∧ ofSource? text = some alone ∧
        alone.IsToken t.kind text.utf8ByteSize := by
  refine ⟨ofSource source, ofSource?_eq source, fun t ht hkind => ?_⟩
  rw [tokens_ofSource, lexemesFrom_zero, List.map_map] at ht
  rcases List.mem_append.1 ht with ht | ht
  · obtain ⟨u, hu, rfl⟩ := List.mem_map.1 ht
    obtain ⟨s, F, hfits, hs, htext⟩ := exists_fits_of_mem_lexemes hu
    refine ⟨String.ofList s.text, _, ?_, ofSource?_eq _, isToken_ofSource hfits hs⟩
    rw [← htext]
    exact (liesOn_of_mem_lexemes hu).text?_span ha
  · obtain rfl := List.mem_singleton.1 ht
    exact absurd rfl hkind

/-- Tokens that end where something else starts: a size in front of a tick that starts no number, a
macro with no name, a name of signs, and a string that stays open. -/
theorem ofSource?_text_mixed :
    Addressable "8 '\x60 \\é+ \"a\\\nb" ∧
      ∃ lexing, ofSource? "8 '\x60 \\é+ \"a\\\nb" = some lexing ∧
      ∀ t ∈ lexing.tokens, t.kind ≠ .eof →
        ∃ text alone, t.span.text? "8 '\x60 \\é+ \"a\\\nb" = some text ∧
          ofSource? text = some alone ∧
          alone.IsToken t.kind text.utf8ByteSize :=
  have ha : Addressable "8 '\x60 \\é+ \"a\\\nb" := by decide
  ⟨ha, ofSource?_text ha⟩

end Lexing

end VerilogScaffold
