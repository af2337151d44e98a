import VerilogScaffold.Proofs.Stretch

/-!
# What a source is heard to say

Blanks, closed comments and directives are silent: they make neither a token nor a diagnostic. The
other segments are events. The tokens and the lexical diagnostics of a source are read off its
events alone (`tokens_ofSource`, `diagnostics_ofSource`), so a fact about the events of a source is
a fact about both.

An event stands at an exact offset. The places of the events of a source lie on it, are not empty,
and follow each other (`lexemes_pairwise`).
-/

namespace VerilogScaffold

/-- A segment that makes a token or a diagnostic, with the byte offset at which it stands. -/
structure Event where
  start : Nat
  segment : Segment
  deriving DecidableEq

/-- Whether a segment makes neither a token nor a diagnostic. -/
def Segment.isSilent (s : Segment) : Bool :=
  match s.kind with
  | .blank | .comment true | .directive => true
  | .comment false | .lexeme _ | .malformed _ => false

namespace Event

/-- The stretch of source an event is about. -/
def place (e : Event) : Stretch := ⟨e.start, e.start + e.segment.byteLength⟩

/-- The token of an event, at its exact place. An unclosed comment has none. -/
def lexeme? (e : Event) : Option (Lexeme Stretch) := e.segment.kind.tokenKind?.map (⟨·, e.place⟩)

/-- The diagnostic of an event, if it has one. -/
def diagnostic? (e : Event) : Option Diagnostic := e.segment.kind.diagnostic? e.place.span

/-- The same event in a text that has `n` more bytes in front. -/
def shift (n : Nat) (e : Event) : Event := ⟨e.start + n, e.segment⟩

theorem place_shift (n : Nat) (e : Event) : (e.shift n).place = e.place.shift n := by
  simp only [place, shift, Stretch.shift, Stretch.mk.injEq, true_and]
  omega

theorem lexeme?_shift (n : Nat) (e : Event) :
    (e.shift n).lexeme? = e.lexeme?.map (Lexeme.map (Stretch.shift n)) := by
  rw [lexeme?, lexeme?, place_shift]
  cases h : e.segment.kind.tokenKind? <;> simp [shift, h, Lexeme.map]

end Event

/-- The events of the segments from byte `start` on. -/
def Segment.eventsFrom (start : Nat) : List Segment → List Event
  | [] => []
  | s :: rest =>
    let later := eventsFrom (start + s.byteLength) rest
    if s.isSilent then later else ⟨start, s⟩ :: later

/-- The events of a text that starts at byte `start`. -/
def eventsFrom (start : Nat) (cs : List Char) : List Event :=
  Segment.eventsFrom start (Segment.split cs)

/-- The tokens of a text that starts at byte `start`, at their exact places and without the end of
the text. -/
def lexemesFrom (start : Nat) (cs : List Char) : List (Lexeme Stretch) :=
  (eventsFrom start cs).filterMap Event.lexeme?

/-! ## Tokens and diagnostics are read off the events -/

namespace Segment

theorem tokensFrom_eq (start : Nat) (segments : List Segment) :
    tokensFrom start segments =
      ((eventsFrom start segments).filterMap Event.lexeme?).map (Lexeme.map Stretch.span) ++
        [⟨.eof, (⟨start + Text.byteLength (segments.flatMap Segment.text),
          start + Text.byteLength (segments.flatMap Segment.text)⟩ : Stretch).span⟩] := by
  induction segments generalizing start with
  | nil => rfl
  | cons s rest ih =>
    have hend : start + s.byteLength + Text.byteLength (rest.flatMap Segment.text) =
        start + Text.byteLength ((s :: rest).flatMap Segment.text) := by
      rw [List.flatMap_cons, Text.byteLength_append, byteLength, Nat.add_assoc]
    rw [tokensFrom, eventsFrom, ih, hend]
    rcases s with ⟨kind | closed | _ | kind | fault, text⟩
    · rfl
    · cases closed <;> rfl
    · rfl
    · rfl
    · rfl

theorem diagnosticsFrom_eq (start : Nat) (segments : List Segment) :
    diagnosticsFrom start segments = (eventsFrom start segments).filterMap Event.diagnostic? := by
  induction segments generalizing start with
  | nil => rfl
  | cons s rest ih =>
    rw [diagnosticsFrom, eventsFrom, ih]
    rcases s with ⟨kind | closed | _ | kind | fault, text⟩
    · rfl
    · cases closed <;> rfl
    · rfl
    · rfl
    · cases fault <;> rfl

end Segment

/-- The tokens of a source are those of its events and the end of the source. -/
theorem tokens_ofSource (source : String) :
    (Lexing.ofSource source).tokens =
      (lexemesFrom 0 source.toList).map (Lexeme.map Stretch.span) ++
        [⟨.eof, (⟨source.utf8ByteSize, source.utf8ByteSize⟩ : Stretch).span⟩] := by
  rw [Lexing.ofSource, Segment.tokensFrom_eq, Segment.flatMap_text_split, Nat.zero_add,
    Text.byteLength_toList]
  rfl

/-- A token of a source is read off it, or is its end. -/
theorem mem_tokens_ofSource {source : String} {t : Token} :
    t ∈ (Lexing.ofSource source).tokens ↔
      (∃ u ∈ lexemesFrom 0 source.toList, u.map Stretch.span = t) ∨
        t = ⟨.eof, (⟨source.utf8ByteSize, source.utf8ByteSize⟩ : Stretch).span⟩ := by
  rw [tokens_ofSource, List.mem_append, List.mem_map, List.mem_singleton]

/-- The tokens of a source before its end, with their exact places stored as spans. -/
theorem tokens_dropLast (source : String) :
    (Lexing.ofSource source).tokens.dropLast =
      (lexemesFrom 0 source.toList).map (Lexeme.map Stretch.span) := by
  rw [tokens_ofSource, List.dropLast_concat]

/-- A token is among those of a source wherever the source is read, apart from its end. -/
theorem any_tokens_ofSource (p : TokenKind → Bool) (hend : p .eof = false) (source : String) :
    (Lexing.ofSource source).tokens.any (p ·.kind) = (lexemesFrom 0 source.toList).any
    (p ·.kind) := by
  rw [tokens_ofSource, List.any_append, List.any_map]
  simp [hend, Function.comp_def, Lexeme.map]

/-- The lexical diagnostics of a source are those of its events. -/
theorem diagnostics_ofSource (source : String) :
    (Lexing.ofSource source).diagnostics =
      (eventsFrom 0 source.toList).filterMap Event.diagnostic? :=
  Segment.diagnosticsFrom_eq 0 _

/-- The codes of lexical diagnostics. -/
def lexicalCodes : List DiagnosticCode := [⟨.error, 101⟩, ⟨.error, 102⟩, ⟨.error, 103⟩]

/-- A segment is reported as an error, where it stands. -/
theorem SegmentKind.isError_of_diagnostic? {kind : SegmentKind} {span : Span} {d : Diagnostic}
    (h : kind.diagnostic? span = some d) :
    d.severity = .error ∧ d.code ∈ lexicalCodes ∧ d.span = span := by
  revert h
  fun_cases SegmentKind.diagnostic? span kind <;> rintro ⟨⟩ <;>
    exact ⟨rfl, by simp [lexicalCodes, Diagnostic.error], rfl⟩

/-- Lexical diagnostics are errors about events. -/
theorem Lexing.isError_of_mem {source : String} {d : Diagnostic}
    (hd : d ∈ (ofSource source).diagnostics) :
    d.severity = .error ∧ d.code ∈ lexicalCodes ∧ ∃ e ∈ eventsFrom 0 source.toList,
    d.span = e.place.span := by
  rw [diagnostics_ofSource] at hd
  obtain ⟨e, he, hd⟩ := List.mem_filterMap.1 hd
  obtain ⟨hseverity, hcode, hspan⟩ := SegmentKind.isError_of_diagnostic? hd
  exact ⟨hseverity, hcode, e, he, hspan⟩

/-! ## Where events stand -/

theorem Segment.eventsFrom_add (start n : Nat) (segments : List Segment) :
    eventsFrom (start + n) segments = (eventsFrom start segments).map (Event.shift n) := by
  induction segments generalizing start with
  | nil => rfl
  | cons s rest ih =>
    have hnext : start + n + s.byteLength = start + s.byteLength + n := by omega
    rw [eventsFrom, eventsFrom, hnext, ih]
    cases s.isSilent <;> rfl

/-- The events of a text move with it. -/
theorem eventsFrom_add (start n : Nat) (cs : List Char) :
    eventsFrom (start + n) cs = (eventsFrom start cs).map (Event.shift n) :=
  Segment.eventsFrom_add start n _

/-- The tokens of a text move with it. -/
theorem lexemesFrom_add (start n : Nat) (cs : List Char) :
    lexemesFrom (start + n) cs = (lexemesFrom start cs).map (Lexeme.map (Stretch.shift n)) := by
  rw [lexemesFrom, eventsFrom_add, List.filterMap_map, lexemesFrom, List.map_filterMap]
  congr 1
  funext e
  exact e.lexeme?_shift n

/-- An event is a segment that stands in the text after the segments before it. -/
theorem Segment.exists_of_mem_eventsFrom {start : Nat} {segments : List Segment} {e : Event}
    (h : e ∈ eventsFrom start segments) :
    ∃ before after, segments = before ++ e.segment :: after ∧
      e.start = start + Text.byteLength (before.flatMap Segment.text) := by
  induction segments generalizing start with
  | nil => simp [eventsFrom] at h
  | cons s rest ih =>
    have hrest : e ∈ eventsFrom (start + s.byteLength) rest → ∃ before after,
        s :: rest = before ++ e.segment :: after ∧
          e.start = start + Text.byteLength (before.flatMap Segment.text) := by
      intro h
      obtain ⟨before, after, rfl, hstart⟩ := ih h
      refine ⟨s :: before, after, rfl, ?_⟩
      rw [hstart, List.flatMap_cons, Text.byteLength_append, byteLength, Nat.add_assoc]
    rw [eventsFrom] at h
    split at h
    · exact hrest h
    · rcases List.mem_cons.1 h with rfl | h
      · exact ⟨[], rest, rfl, rfl⟩
      · exact hrest h

theorem Segment.isSilent_of_mem_eventsFrom {start : Nat} {segments : List Segment} {e : Event}
    (h : e ∈ eventsFrom start segments) : e.segment.isSilent = false := by
  induction segments generalizing start with
  | nil => cases h
  | cons s rest ih =>
    rw [eventsFrom] at h
    split at h
    · exact ih h
    · next hs =>
      rcases List.mem_cons.1 h with rfl | h
      · exact Bool.eq_false_iff.2 hs
      · exact ih h

/-- The place of an event lies on the text, and is not empty. -/
theorem Event.liesOn_of_mem {cs : List Char} {e : Event} (h : e ∈ eventsFrom 0 cs) :
    e.place.LiesOn cs ∧ e.place.start < e.place.stop := by
  obtain ⟨before, after, hsplit, hstart⟩ := Segment.exists_of_mem_eventsFrom h
  have htext : e.segment.text ≠ [] :=
    Segment.text_ne_nil_of_mem_split (hsplit ▸ List.mem_append_right before (List.mem_cons_self ..))
  have hcs : cs = before.flatMap Segment.text ++
      (e.segment.text ++ after.flatMap Segment.text) := by
    rw [← Segment.flatMap_text_split cs, hsplit, List.flatMap_append, List.flatMap_cons]
  have hpos := Text.byteLength_pos htext
  have hplace : e.place = ⟨Text.byteLength (before.flatMap Segment.text),
      Text.byteLength (before.flatMap Segment.text) + Text.byteLength e.segment.text⟩ := by
    rw [place, hstart, Nat.zero_add]
    rfl
  rw [hplace]
  exact ⟨⟨⟨_, _, hcs, rfl⟩,
    ⟨before.flatMap Segment.text ++ e.segment.text, after.flatMap Segment.text,
      by rw [hcs, List.append_assoc], Text.byteLength_append _ _⟩,
    Nat.le_add_right _ _⟩, Nat.lt_add_of_pos_right hpos⟩

theorem Segment.le_start_of_mem_eventsFrom {start : Nat} {segments : List Segment} {e : Event}
    (h : e ∈ eventsFrom start segments) : start ≤ e.start := by
  obtain ⟨before, after, -, hstart⟩ := exists_of_mem_eventsFrom h
  omega

/-- Events follow each other: one ends where the next starts, or before. -/
theorem Segment.eventsFrom_pairwise (start : Nat) (segments : List Segment) :
    (eventsFrom start segments).Pairwise fun a b => a.place.stop ≤ b.place.start := by
  induction segments generalizing start with
  | nil => exact .nil
  | cons s rest ih =>
    rw [eventsFrom]
    split
    · exact ih _
    · exact .cons (fun e he => le_start_of_mem_eventsFrom he) (ih _)

/-! ## Where tokens stand -/

theorem Event.place_of_lexeme? {e : Event} {t : Lexeme Stretch} (h : e.lexeme? = some t) :
    t.place = e.place := by
  obtain ⟨kind, -, rfl⟩ := Option.map_eq_some_iff.1 h
  rfl

/-- A token stands where an event does. -/
theorem exists_event_of_mem_lexemesFrom {start : Nat} {cs : List Char} {t : Lexeme Stretch}
    (h : t ∈ lexemesFrom start cs) : ∃ e ∈ eventsFrom start cs, t.place = e.place := by
  obtain ⟨e, he, ht⟩ := List.mem_filterMap.1 h
  exact ⟨e, he, Event.place_of_lexeme? ht⟩

/-- A token lies on its text, and is not empty. -/
theorem liesOn_of_mem_lexemesFrom {cs : List Char} {t : Lexeme Stretch} (h : t ∈ lexemesFrom 0 cs) :
    t.place.LiesOn cs ∧ t.place.start < t.place.stop := by
  obtain ⟨e, he, hplace⟩ := exists_event_of_mem_lexemesFrom h
  rw [hplace]
  exact Event.liesOn_of_mem he

/-- Tokens follow each other. -/
theorem lexemes_pairwise (start : Nat) (cs : List Char) :
    (lexemesFrom start cs).Pairwise fun a b => a.place.stop ≤ b.place.start := by
  refine List.Pairwise.filterMap _ ?_ (Segment.eventsFrom_pairwise start _)
  intro a b hle t ht u hu
  rw [Event.place_of_lexeme? ht, Event.place_of_lexeme? hu]
  exact hle

end VerilogScaffold
