import Mathlib
import VerilogScaffold.Proofs.ByteLexer
import VerilogScaffold.Proofs.Line
import VerilogScaffold.Proofs.Safety

/-!
# Sources are read line by line

`eventsFrom_append_newline` cuts a text behind a line that ends cleanly. Here the cut is followed to
the answer of the lexer: the tokens and diagnostics of two texts with a newline between them are
those of the first, and then those of the second, moved behind it
(`Lexing.ofSource?_append_newline`). That is one step; a source of many lines is read by as many
(`Lexing.ofSource_intercalate`).

A span is moved in the words it is stored in. On a source whose offsets fit these words nothing
wraps around, so moving a span adds the bytes in front to both its offsets
(`Lexing.toNat_shift_of_mem_spans`).
-/

namespace VerilogScaffold

/-- A span in a text that has `n` more bytes in front. -/
def Span.shift (n : Nat) (s : Span) : Span := ⟨s.start + .ofNat n, s.stop + .ofNat n⟩

/-- A diagnostic about a text that has `n` more bytes in front. -/
def Diagnostic.shift (n : Nat) (d : Diagnostic) : Diagnostic := { d with span := d.span.shift n }

namespace Lexing

/-- The tokens and diagnostics of a text that has `n` more bytes in front. -/
def shift (n : Nat) (l : Lexing) : Lexing :=
  ⟨l.tokens.map (Lexeme.map (Span.shift n)), l.diagnostics.map (Diagnostic.shift n)⟩

/-- Tokens and diagnostics, without the end of their text, and what follows them. -/
def followedBy (l m : Lexing) : Lexing :=
  ⟨l.tokens.dropLast ++ m.tokens, l.diagnostics ++ m.diagnostics⟩

/-- What a source of one line or more says, each line read alone and moved behind the lines before
it. -/
def ofLines (first : String) : List String → Lexing
  | [] => ofSource first
  | next :: rest => (ofSource first).followedBy ((ofLines next rest).shift (first.utf8ByteSize + 1))

/-- All the places that a lexing names. -/
def spans (l : Lexing) : List Span := l.tokens.map Lexeme.span ++ l.diagnostics.map Diagnostic.span

end Lexing

/-! ## Moving what a text says -/

/-- A stretch is stored alike before it is moved and after. -/
theorem Stretch.span_shift (n : Nat) (p : Stretch) : (p.shift n).span = p.span.shift n := by
  rw [span, shift, Span.ofOffsets, UInt32.ofNat_add, UInt32.ofNat_add]
  rfl

theorem Lexeme.map_span_shift (n : Nat) (t : Lexeme Stretch) :
    (t.map (Stretch.shift n)).map Stretch.span = (t.map Stretch.span).map (Span.shift n) := by
  simp only [Lexeme.map, Stretch.span_shift]

theorem SegmentKind.diagnostic?_shift (n : Nat) (span : Span) (kind : SegmentKind) :
    kind.diagnostic? (span.shift n) = (kind.diagnostic? span).map (Diagnostic.shift n) := by
  rcases kind with _ | closed | _ | _ | fault
  · rfl
  · cases closed <;> rfl
  · rfl
  · rfl
  · cases fault <;> rfl

theorem Event.diagnostic?_shift (n : Nat) (e : Event) :
    (e.shift n).diagnostic? = e.diagnostic?.map (Diagnostic.shift n) := by
  rw [diagnostic?, place_shift, Stretch.span_shift]
  exact SegmentKind.diagnostic?_shift n _ _

/-- The diagnostics of a text move with it. -/
theorem diagnosticsFrom_add (start n : Nat) (cs : List Char) :
    (eventsFrom (start + n) cs).filterMap Event.diagnostic? =
      ((eventsFrom start cs).filterMap Event.diagnostic?).map (Diagnostic.shift n) := by
  rw [eventsFrom_add, List.filterMap_map, List.map_filterMap]
  congr 1
  funext e
  exact e.diagnostic?_shift n

namespace Lexing

/-- What the rest of a source says, moved behind the text in front of it. -/
theorem shift_ofSource (n : Nat) (source : String) :
    (ofSource source).shift n =
      ⟨(lexemesFrom n source.toList).map (Lexeme.map Stretch.span) ++
          [⟨.eof, (⟨n + source.utf8ByteSize, n + source.utf8ByteSize⟩ : Stretch).span⟩],
        (eventsFrom n source.toList).filterMap Event.diagnostic?⟩ := by
  have htokens : ((lexemesFrom 0 source.toList).map (Lexeme.map Stretch.span)).map
      (Lexeme.map (Span.shift n)) =
        (lexemesFrom n source.toList).map (Lexeme.map Stretch.span) := by
    rw [← Nat.zero_add n, lexemesFrom_add, Nat.zero_add, List.map_map, List.map_map]
    exact List.map_congr_left fun t _ => (t.map_span_shift n).symm
  have hend : (⟨source.utf8ByteSize, source.utf8ByteSize⟩ : Stretch).span.shift n =
      (⟨n + source.utf8ByteSize, n + source.utf8ByteSize⟩ : Stretch).span := by
    rw [← Stretch.span_shift, Stretch.shift, Nat.add_comm]
  have hdiagnostics := diagnosticsFrom_add 0 n source.toList
  rw [Nat.zero_add] at hdiagnostics
  rw [shift, tokens_ofSource, diagnostics_ofSource, List.map_append, htokens, hdiagnostics, ← hend]
  rfl

/-- A source that is heard to say what one source says, and then what another says, is read so. -/
theorem ofSource_of_eventsFrom {source p q : String} {n : Nat}
    (hevents : eventsFrom 0 source.toList = eventsFrom 0 p.toList ++ eventsFrom n q.toList)
    (hbytes : source.utf8ByteSize = n + q.utf8ByteSize) :
    ofSource source = (ofSource p).followedBy ((ofSource q).shift n) := by
  have htokens : (ofSource source).tokens =
      ((ofSource p).followedBy ((ofSource q).shift n)).tokens := by
    rw [followedBy, shift_ofSource, tokens_dropLast, tokens_ofSource, lexemesFrom, hevents,
      List.filterMap_append, List.map_append, List.append_assoc, hbytes]
    rfl
  have hdiagnostics :
      (ofSource source).diagnostics =
        ((ofSource p).followedBy ((ofSource q).shift n)).diagnostics := by
    rw [followedBy, shift_ofSource, diagnostics_ofSource, diagnostics_ofSource, hevents,
      List.filterMap_append]
  calc ofSource source
      = ⟨(ofSource source).tokens, (ofSource source).diagnostics⟩ := rfl
    _ = (ofSource p).followedBy ((ofSource q).shift n) := by rw [htokens, hdiagnostics]

/-- A source that lexes cleanly, and any source on the lines behind it. -/
theorem ofSource_append_newline {p : String} (hp : LexesCleanly p) (q : String) :
    ofSource (p ++ "\n" ++ q) =
      (ofSource p).followedBy ((ofSource q).shift (p.utf8ByteSize + 1)) := by
  have htoList : (p ++ "\n" ++ q).toList = p.toList ++ '\n' :: q.toList := by
    simp [String.toList_append]
  have hevents : eventsFrom 0 (p ++ "\n" ++ q).toList =
      eventsFrom 0 p.toList ++ eventsFrom (p.utf8ByteSize + 1) q.toList := by
    rw [htoList, eventsFrom_append_newline hp.endsCleanly, Nat.zero_add, Text.byteLength_toList]
  have hbytes : (p ++ "\n" ++ q).utf8ByteSize = p.utf8ByteSize + 1 + q.utf8ByteSize := by
    rw [String.utf8ByteSize_append, String.utf8ByteSize_append]
    rfl
  exact ofSource_of_eventsFrom hevents hbytes

/-- A source of any number of lines, all but the last of which lex cleanly, is read line by line. -/
theorem ofSource_intercalate (first : String) (rest : List String)
    (hlines : ∀ line ∈ (first :: rest).dropLast, LexesCleanly line) :
    ofSource ("\n".intercalate (first :: rest)) = ofLines first rest := by
  induction rest generalizing first with
  | nil => rw [String.intercalate_singleton, ofLines]
  | cons next rest ih =>
    have hfirst : LexesCleanly first := hlines first (List.mem_cons_self ..)
    have hrest : ofSource ("\n".intercalate (next :: rest)) = ofLines next rest :=
      ih next fun line hline => hlines line (List.mem_cons_of_mem first hline)
    rw [String.intercalate_cons_cons, ofSource_append_newline hfirst, hrest, ofLines]

/-! ## The offsets of what is moved -/

/-- Every place a lexing names lies on its source. -/
theorem le_of_mem_spans {source : String} (ha : Addressable source) {s : Span}
    (hs : s ∈ (ofSource source).spans) :
    s.start.toNat ≤ source.utf8ByteSize ∧ s.stop.toNat ≤ source.utf8ByteSize := by
  rcases List.mem_append.1 hs with hs | hs
  · obtain ⟨t, ht, rfl⟩ := List.mem_map.1 hs
    rcases mem_tokens_ofSource.1 ht with ⟨u, hu, rfl⟩ | rfl
    · have hon := (liesOn_of_mem_lexemesFrom hu).1
      have hstart : (u.map Stretch.span).span.start.toNat = u.place.start := hon.toNat_start ha
      have hstop : (u.map Stretch.span).span.stop.toNat = u.place.stop := hon.toNat_stop ha
      rw [hstart, hstop, ← Text.byteLength_toList]
      exact ⟨hon.start.le, hon.stop.le⟩
    · exact ⟨Nat.mod_le _ _, Nat.mod_le _ _⟩
  · obtain ⟨d, hd, rfl⟩ := List.mem_map.1 hs
    have hmarks := Lexing.marks ha hd
    exact ⟨Nat.le_trans (Nat.le_of_lt hmarks.lt) hmarks.le, hmarks.le⟩

/-- Where all offsets fit, moving a span adds to them. -/
theorem toNat_shift_of_mem_spans {source : String} {n : Nat}
    (hn : n + source.utf8ByteSize < UInt32.size) {s : Span} (hs : s ∈ (ofSource source).spans) :
    (s.shift n).start.toNat = s.start.toNat + n ∧ (s.shift n).stop.toNat = s.stop.toNat + n := by
  have ha : Addressable source := Nat.lt_of_le_of_lt (Nat.le_add_left _ n) hn
  obtain ⟨hstart, hstop⟩ := le_of_mem_spans ha hs
  have hword : (UInt32.ofNat n).toNat = n := UInt32.toNat_ofNat_of_lt (by omega)
  have hadd : ∀ a : UInt32, a.toNat ≤ source.utf8ByteSize →
      (a + UInt32.ofNat n).toNat = a.toNat + n := by
    intro a hle
    rw [UInt32.toNat_add, hword]
    exact Nat.mod_eq_of_lt (by rw [UInt32.size] at hn; omega)
  exact ⟨hadd _ hstart, hadd _ hstop⟩

/-! ## Two sources on lines of their own -/

/-- **Sources are read line by line.** A source that lexes cleanly, a newline and any second source
are read as the first one, up to its end, and then the second one, all its spans moved by the bytes
in front of it. -/
theorem ofSource?_append_newline {p : String} (hp : LexesCleanly p) (q : String) :
    ∃ left right, ofSource? p = some left ∧ ofSource? q = some right ∧
      left.tokens.getLast?.map Lexeme.kind = some .eof ∧
      ofSource? (p ++ "\n" ++ q) = some (left.followedBy (right.shift (p.utf8ByteSize + 1))) ∧
      (Addressable (p ++ "\n" ++ q) → ∀ s ∈ right.spans,
        (s.shift (p.utf8ByteSize + 1)).start.toNat = s.start.toNat + (p.utf8ByteSize + 1) ∧
          (s.shift (p.utf8ByteSize + 1)).stop.toNat = s.stop.toNat + (p.utf8ByteSize + 1)) := by
  refine ⟨ofSource p, ofSource q, ofSource?_eq p, ofSource?_eq q, ?_, ?_, fun ha s hs => ?_⟩
  · rw [tokens_ofSource, List.getLast?_concat]
    rfl
  · rw [ofSource?_eq, ofSource_append_newline hp]
  · refine toNat_shift_of_mem_spans ?_ hs
    rw [Addressable, String.utf8ByteSize_append, String.utf8ByteSize_append] at ha
    exact ha

/-- A directive and a based number without digits at the ends of their lines, and behind them a
string and a comment that are left open. -/
theorem ofSource?_append_newline_number :
    ofSource? ("\\ `define W 8\nx = 8'h " ++ "\n" ++ "y \"z\n/* w") =
      some ((ofSource "\\ `define W 8\nx = 8'h ").followedBy ((ofSource "y \"z\n/* w").shift 23)) :=
  by
  have hdiagnostics : (ofSource "\\ `define W 8\nx = 8'h ").diagnostics =
      [.error 103 "empty escaped identifier" ⟨0, 1⟩] := by cbv
  have hclean : LexesCleanly "\\ `define W 8\nx = 8'h " :=
    ⟨by simp [hdiagnostics, Diagnostic.error], by simp [hdiagnostics, Diagnostic.error], by decide⟩
  obtain ⟨left, right, hleft, hright, -, h, -⟩ := ofSource?_append_newline hclean "y \"z\n/* w"
  rw [ofSource?_eq, Option.some.injEq] at hleft hright
  rw [hleft, hright]
  exact h

end Lexing

end VerilogScaffold
