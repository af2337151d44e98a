import VerilogScaffold.Proofs.Comment

/-!
# Tokens tile their source

Between the tokens of a source stands nothing but what is skipped: blanks, comments, and directives
with the text they cover. `Trivium` says what one such piece is, without the measures that cut it
off. Each segment that makes no token is one (`Segment.Fits.trivium`), so the tokens and the pieces
between them lie one after the other from the start of the source to its end (`Tiles`), and not a
byte is lost (`Lexing.tiles`).

What a piece is depends on what stands behind it: a line comment goes on to the end of its line, and
only at the end of the source may a block comment stay open.
-/

namespace VerilogScaffold

open Text Segment

/-! ## What stands between tokens -/

/-- What a directive covers after its word, where `behind` stands after it. -/
inductive Segment.DirectiveExtent.Covers (behind : List Char) : DirectiveExtent → List Char → Prop
  | word : Covers behind .word []
  /-- Both the gap and the name go on as far as they can. -/
  | wordAndName {gap name : List Char} (gaps : ∀ c ∈ gap, isGap c = true)
      (chars : ∀ c ∈ name, isWordChar c = true) (nameless : name = [] →
        startsWith isGap behind = false)
      (stops : startsWith isWordChar behind = false) : Covers behind .wordAndName (gap ++ name)
  /-- Each line in it but the last is continued, and the last is not, unless the source ends with
  it. -/
  | line {text : List Char}
      (continued : ∀ front back, text = front ++ '\n' :: back → endsInBackslash front = true)
      (stops : behind = [] ∨ behind.head? = some '\n' ∧ endsInBackslash text = false) :
      Covers behind .line text

/-- A piece of text that makes no token, where `behind` stands after it. -/
inductive Trivium (behind : List Char) : List Char → Prop
  | blanks {cs : List Char} (blank : ∀ c ∈ cs, isAsciiBlank c = true) : Trivium behind cs
  | lineComment {body : List Char} (inLine : '\n' ∉ body)
      (stops : behind = [] ∨ behind.head? = some '\n') :
      Trivium behind ('/' :: '/' :: body)
  /-- The closing mark is the first in it. -/
  | blockComment {body : List Char} (first : ¬['*', '/'] <:+: body ++ ['*']) :
      Trivium behind ('/' :: '*' :: (body ++ ['*', '/']))
  | openComment {body : List Char} (noMark : ¬['*', '/'] <:+: body) (stops : behind = []) :
      Trivium behind ('/' :: '*' :: body)
  | directive {word covered : List Char} {extent : DirectiveExtent}
      (listed : (String.ofList word, extent) ∈ directives)
      (whole : startsWith isWordChar (covered ++ behind) = false)
      (covers : extent.Covers behind covered) :
      Trivium behind ('\x60' :: (word ++ covered))

/-- Text that makes no token: pieces of it, one after the other. -/
inductive Trivia (behind : List Char) : List Char → Prop
  | nil : Trivia behind []
  | cons {piece rest : List Char} (first : Trivium (rest ++ behind) piece)
      (others : Trivia behind rest) :
      Trivia behind (piece ++ rest)

/-! ## Segments that make no token -/

namespace Segment

variable {s : Segment} {F cs rest : List Char}

/-- A text that has a closing mark in it has it where the first one was found. -/
theorem exists_body_of_commentEnd? (h : commentEnd? cs = some cs.length) :
    ∃ body, cs = body ++ ['*', '/'] ∧ ¬['*', '/'] <:+: body ++ ['*'] := by
  fun_induction commentEnd? cs with
  | case1 cs =>
    obtain rfl : cs = [] := by simpa using h.symm
    exact ⟨[], rfl, by decide⟩
  | case2 c cs hmark ih =>
    obtain ⟨n, hn, hlength⟩ := Option.map_eq_some_iff.1 h
    obtain ⟨body, rfl, hbody⟩ := ih (by rw [hn, Nat.succ.inj hlength])
    refine ⟨c :: body, rfl, fun hinfix => ?_⟩
    rcases List.infix_cons_iff.1 hinfix with hprefix | hinfix
    · obtain ⟨rfl, hslash⟩ := List.cons_prefix_cons.1 hprefix
      rcases body with _ | ⟨d, body⟩
      · simp at hslash
      · obtain ⟨rfl, -⟩ := List.cons_prefix_cons.1 hslash
        exact hmark (body ++ ['*', '/']) rfl rfl
    · exact hbody hinfix
  | case3 => cases h

theorem not_infix_of_commentEnd? (h : commentEnd? cs = none) : ¬['*', '/'] <:+: cs := by
  fun_induction commentEnd? cs with
  | case1 => cases h
  | case2 c cs hmark ih =>
    intro hinfix
    rcases List.infix_cons_iff.1 hinfix with hprefix | hinfix
    · obtain ⟨rfl, rest, rfl⟩ := List.cons_prefix_cons.1 hprefix
      exact hmark rest rfl rfl
    · exact ih (Option.map_eq_none_iff.1 h) hinfix
  | case3 => simp

/-- What a slash starts. -/
theorem measure_slash (cs : List Char) : measure '/' cs =
    if startsWith (· == '/') cs then (.comment true, run (· != '\n') cs)
    else if startsWith (· == '*') cs then
      match commentEnd? (cs.drop 1) with
      | some n => (.comment true, 1 + n)
      | none => (.comment false, cs.length)
    else (.lexeme .operator, 0) := by
  rw [measure, if_neg (by decide)]
  simp only [true_and]
  rfl

theorem startsWith_eq_false_iff_of_newline :
    startsWith (· != '\n') F = false ↔ F = [] ∨ F.head? = some '\n' := by
  rcases F with _ | ⟨c, F⟩ <;> simp [startsWith]

theorem exists_cons_of_startsWith {c : Char} (h : startsWith (· == c) (cs ++ F) = true)
    (hcs : cs ≠ []) : ∃ body, cs = c :: body := by
  rcases cs with _ | ⟨d, cs⟩
  · exact absurd rfl hcs
  · obtain rfl : d = c := by simpa [startsWith] using h
    exact ⟨cs, rfl⟩

/-- A comment is a line comment, a closed block comment, or one left open at the end of the text. -/
theorem Fits.trivium_of_comment {closed : Bool} (h : s.Fits F) (hs : s.kind = .comment closed) :
    Trivium F s.text := by
  have hslash := h.head?_of_comment hs
  obtain ⟨c, cs, htext, hmeasure⟩ := h
  obtain rfl : c = '/' := by simpa [htext] using hslash
  rw [htext]
  rw [measure_slash, hs] at hmeasure
  split at hmeasure
  · rename_i hline
    have hlength := (Prod.mk.inj hmeasure).2
    obtain ⟨hbody, hstops⟩ := run_append_eq_length_iff.1 hlength
    have hne : cs ≠ [] := by
      rintro rfl
      rcases F with _ | ⟨d, F⟩
      · cases hline
      · obtain rfl : d = '/' := by simpa [startsWith] using hline
        cases hstops
    obtain ⟨body, rfl⟩ := exists_cons_of_startsWith hline hne
    refine .lineComment (fun hnewline => ?_) (startsWith_eq_false_iff_of_newline.1 hstops)
    simpa using hbody '\n' (List.mem_cons_of_mem _ hnewline)
  · split at hmeasure
    · rename_i hblock
      split at hmeasure
      · rename_i n hend
        have hlength := (Prod.mk.inj hmeasure).2
        obtain ⟨body, rfl⟩ := exists_cons_of_startsWith hblock (by rintro rfl; simp at hlength)
        obtain rfl : n = body.length := by simpa [Nat.add_comm] using hlength
        obtain ⟨body, rfl, hfirst⟩ := exists_body_of_commentEnd? (commentEnd?_of_append hend le_rfl)
        exact .blockComment hfirst
      · rename_i hend
        have hlength := (Prod.mk.inj hmeasure).2
        obtain rfl : F = [] := by simpa using hlength
        obtain ⟨body, rfl⟩ := exists_cons_of_startsWith hblock (by rintro rfl; cases hblock)
        rw [List.append_nil] at hend
        exact .openComment (not_infix_of_commentEnd? hend) rfl
    · cases (Prod.mk.inj hmeasure).1

/-- A line directive goes on over the lines that are continued. -/
theorem continued_of_lineEnd {continued : Bool} (h : lineEnd continued (cs ++ F) = cs.length) :
    (∀ front back, cs = front ++ '\n' :: back → continuedAfter continued front = true) ∧
      (F = [] ∨ F.head? = some '\n' ∧ continuedAfter continued cs = false) := by
  induction cs generalizing continued with
  | nil =>
    refine ⟨by simp, ?_⟩
    rcases lineEnd_eq_zero_iff.1 h with hF | ⟨rfl, hF⟩
    · exact .inl hF
    · exact (startsWith_eq_false_iff_of_newline.1 hF).imp id fun hF => ⟨hF, rfl⟩
  | cons c cs ih =>
    by_cases hc : c = '\n'
    · subst hc
      rw [List.cons_append, lineEnd, if_pos rfl] at h
      cases continued
      · cases h
      · obtain ⟨hlines, hstops⟩ := ih (Nat.succ.inj h)
        refine ⟨fun front back hcut => ?_, hstops⟩
        rcases front with _ | ⟨d, front⟩
        · rfl
        · obtain ⟨rfl, hrest⟩ := List.cons.inj hcut
          exact hlines front back hrest
    · rw [List.cons_append, lineEnd_cons hc] at h
      obtain ⟨hlines, hstops⟩ := ih (Nat.succ.inj h)
      refine ⟨fun front back hcut => ?_, hstops⟩
      rcases front with _ | ⟨d, front⟩
      · exact absurd (List.cons.inj hcut).1 hc
      · obtain ⟨rfl, hrest⟩ := List.cons.inj hcut
        exact hlines front back hrest

theorem run_append_of_forall {p : Char → Bool} (h : ∀ c ∈ cs, p c = true) (F : List Char) :
    run p (cs ++ F) = cs.length + run p F := by
  induction cs with
  | nil => simp
  | cons c cs ih =>
    obtain ⟨hc, hcs⟩ := List.forall_mem_cons.1 h
    rw [List.cons_append, run_cons_of_pos hc, ih hcs, List.length_cons, Nat.add_right_comm]

/-- The text that a directive's measure takes is what its extent covers. -/
theorem covers_of_measure {extent : DirectiveExtent}
    (h : extent.measure (rest ++ F) = rest.length) :
    extent.Covers F rest := by
  cases extent with
  | word =>
    obtain rfl : rest = [] := List.eq_nil_of_length_eq_zero h.symm
    exact .word
  | wordAndName =>
    obtain ⟨gap, name, rfl, hgap, hname⟩ := exists_run isGap rest
    rw [DirectiveExtent.measure, List.append_assoc] at h
    rcases name with _ | ⟨c, name⟩
    · rw [List.nil_append, run_append_of_forall hgap, List.append_nil, Nat.add_assoc] at h
      have hnameless : startsWith isGap F = false := run_eq_zero_iff.1 (by omega)
      have hdrop : (gap ++ F).drop (gap.length + run isGap F) = F := by
        rw [run_eq_zero_iff.2 hnameless, Nat.add_zero, List.drop_left]
      rw [hdrop] at h
      exact .wordAndName hgap (List.forall_mem_nil _) (fun _ => hnameless)
        (run_eq_zero_iff.1 (by omega))
    · have hrun : run isGap (gap ++ (c :: name ++ F)) = gap.length := run_append_of_all hgap hname
      rw [hrun, List.drop_left, List.length_append, Nat.add_left_cancel_iff] at h
      obtain ⟨hchars, hstops⟩ := run_append_eq_length_iff.1 h
      exact .wordAndName hgap hchars (absurd · (List.cons_ne_nil c name)) hstops
  | line =>
    obtain ⟨hlines, hstops⟩ := continued_of_lineEnd h
    have hends : ∀ cs, endsInBackslash cs = continuedAfter false cs := endsInBackslash_append_eq []
    exact .line (fun front back hcut => (hends front).trans (hlines front back hcut))
      (hstops.imp id fun hstops => ⟨hstops.1, (hends rest).trans hstops.2⟩)

/-- The word of a directive is as long as it can be. -/
theorem Fits.startsWith_of_directive {word covered : List Char}
    (h : Fits F ⟨.directive, '\x60' :: (word ++ covered)⟩) (hword : ∀ c ∈ word, isWordChar c = true)
    (hcovered : startsWith isWordChar covered = false) :
    startsWith isWordChar (covered ++ F) = false := by
  rcases covered with _ | ⟨c, covered⟩
  · rw [List.nil_append]
    obtain ⟨c, cs, htext, hmeasure⟩ := h
    obtain ⟨rfl, rfl⟩ := List.cons.inj htext
    rw [List.append_nil, measure_backtick, measureBacktick] at hmeasure
    split at hmeasure
    · have hlength := (Prod.mk.inj hmeasure).2
      rw [run_append_of_forall hword] at hlength
      exact run_eq_zero_iff.1 (by omega)
    · cases (Prod.mk.inj hmeasure).1
  · exact hcovered

/-- **A segment that makes no token is trivia.** -/
theorem Fits.trivium (h : s.Fits F) (hs : s.kind.tokenKind? = none) : Trivium F s.text := by
  rcases s with ⟨_ | closed | _ | kind | fault, text⟩
  · exact .blanks (h.isAsciiBlank rfl)
  · exact h.trivium_of_comment rfl
  · obtain ⟨cs, htext⟩ := h.exists_backtick
    obtain rfl : text = '\x60' :: cs := htext
    obtain ⟨word, covered, rfl, hword, hcovered⟩ := exists_run isWordChar cs
    have hwhole := h.startsWith_of_directive hword hcovered
    obtain ⟨extent, hextent, hmeasure⟩ := (fits_directive_iff hword hwhole).1 h
    obtain ⟨front, back, htable, -⟩ := List.lookup_eq_some_iff.1 hextent
    exact .directive (htable ▸ List.mem_append_right front (List.mem_cons_self ..)) hwhole
      (covers_of_measure hmeasure)
  · cases hs
  · cases hs

end Segment

/-! ## Tilings -/

/-- The places of tokens in a text that starts at byte `start`, and the end of the text after them:
they lie one after the other with nothing but trivia between them. -/
inductive Tiles : Nat → List Char → List Stretch → Prop
  | last {start : Nat} {gap : List Char} (trivia : Trivia [] gap) :
      Tiles start gap [⟨start + byteLength gap, start + byteLength gap⟩]
  | token {start : Nat} {gap text behind : List Char} {places : List Stretch}
      (trivia : Trivia (text ++ behind) gap)
      (others : Tiles (start + byteLength gap + byteLength text) behind places) :
      Tiles start (gap ++ (text ++ behind))
        (⟨start + byteLength gap, start + byteLength gap + byteLength text⟩ :: places)

theorem Tiles.cons_trivium {start : Nat} {piece cs : List Char} {places : List Stretch}
    (hpiece : Trivium cs piece) (h : Tiles (start + byteLength piece) cs places) :
    Tiles start (piece ++ cs) places := by
  cases h with
  | @last _ gap trivia =>
    rw [Nat.add_assoc, ← byteLength_append]
    exact .last (.cons (by rwa [List.append_nil]) trivia)
  | @token _ gap text behind places trivia others =>
    have hstart : start + byteLength piece + byteLength gap = start +
        byteLength (piece ++ gap) := by
      rw [byteLength_append, Nat.add_assoc]
    rw [hstart] at others ⊢
    rw [← List.append_assoc]
    exact .token (.cons hpiece trivia) others

/-- The places of the tokens of segments, and the end of the segments after them. -/
def Segment.placesFrom (start : Nat) (segments : List Segment) : List Stretch :=
  ((eventsFrom start segments).filterMap Event.lexeme?).map Lexeme.place ++
    [⟨start + Text.byteLength (segments.flatMap text),
      start + Text.byteLength (segments.flatMap text)⟩]

theorem Segment.placesFrom_cons (start : Nat) (s : Segment) (rest : List Segment) :
    placesFrom start (s :: rest) =
      (s.kind.tokenKind?.map fun _ => (⟨start, start + s.byteLength⟩ : Stretch)).toList ++
        placesFrom (start + s.byteLength) rest := by
  have hend : start + s.byteLength + Text.byteLength (rest.flatMap text) =
      start + Text.byteLength ((s :: rest).flatMap text) := by
    rw [List.flatMap_cons, Text.byteLength_append, byteLength, Nat.add_assoc]
  rw [placesFrom, placesFrom, eventsFrom, hend]
  rcases s with ⟨kind | closed | _ | kind | fault, text⟩
  · rfl
  · cases closed <;> rfl
  · rfl
  · rfl
  · rfl

theorem Segment.tiles_of_fit {segments : List Segment} (h : Fit [] segments) (start : Nat) :
    Tiles start (segments.flatMap text) (placesFrom start segments) := by
  induction segments generalizing start with
  | nil => exact .last .nil
  | cons s rest ih =>
    obtain ⟨hs, hrest⟩ := h
    have hrest := ih hrest (start + s.byteLength)
    rw [List.append_nil] at hs
    rw [placesFrom_cons, List.flatMap_cons]
    rcases hkind : s.kind.tokenKind? with _ | kind
    · exact .cons_trivium (hs.trivium hkind) hrest
    · exact @Tiles.token start [] s.text _ _ .nil hrest

/-- What stands in front of a place of a tiling is trivia. -/
theorem Tiles.exists_gap {start : Nat} {cs : List Char} {places before after : List Stretch}
    {p : Stretch} (h : Tiles start cs places) (hp : places = before ++ p :: after) :
    ∃ front gap behind, cs = front ++ (gap ++ behind) ∧
      start + byteLength front = (before.getLast?.map Stretch.stop).getD start ∧
      start + byteLength (front ++ gap) = p.start ∧ Trivia behind gap := by
  induction h generalizing before with
  | @last start gap trivia =>
    rcases before with _ | ⟨q, before⟩
    · obtain ⟨rfl, -⟩ := List.cons.inj hp
      exact ⟨[], gap, [], by simp, rfl, rfl, trivia⟩
    · simp at hp
  | @token start gap text behind places trivia others ih =>
    rcases before with _ | ⟨q, before⟩
    · obtain ⟨rfl, -⟩ := List.cons.inj hp
      exact ⟨[], gap, text ++ behind, rfl, rfl, rfl, trivia⟩
    · obtain ⟨rfl, hplaces⟩ := List.cons.inj hp
      obtain ⟨front, gap', behind', rfl, hfront, hstart, htrivia⟩ := ih hplaces
      refine ⟨gap ++ text ++ front, gap', behind', by simp, ?_, ?_, htrivia⟩
      · rw [List.getLast?_cons, byteLength_append, byteLength_append, ← Nat.add_assoc,
          ← Nat.add_assoc, hfront]
        rcases before.getLast? <;> rfl
      · rw [← hstart]
        simp only [byteLength_append, Nat.add_assoc]

/-! ## Tokens -/

/-- No segment is the end of the source. -/
theorem Segment.Fits.tokenKind?_ne_eof {s : Segment} {F : List Char} (h : s.Fits F) :
    s.kind.tokenKind? ≠ some .eof := by
  intro heof
  rcases hs : s.kind with _ | closed | _ | kind | fault <;> rw [hs] at heof <;> cases heof
  exact absurd (h.isWritten hs) (by decide)

theorem kind_ne_eof_of_mem_lexemesFrom {start : Nat} {cs : List Char} {t : Lexeme Stretch}
    (h : t ∈ lexemesFrom start cs) : t.kind ≠ .eof := by
  obtain ⟨e, he, ht⟩ := List.mem_filterMap.1 h
  obtain ⟨before, after, hsplit, -⟩ := Segment.exists_of_mem_eventsFrom he
  obtain ⟨kind, hkind, rfl⟩ := Option.map_eq_some_iff.1 ht
  have hfit := fit_split cs
  rw [hsplit, fit_append] at hfit
  obtain ⟨-, hfits, -⟩ := hfit
  rintro rfl
  exact hfits.tokenKind?_ne_eof hkind

namespace Lexing

variable {source : String}

/-- What stands in front of a token, behind the one before it, is trivia. -/
theorem exists_gap (ha : Addressable source) {before after : List Token} {t : Token}
    (h : (ofSource source).tokens = before ++ t :: after) :
    ∃ front gap behind, source.toList = front ++ (gap ++ behind) ∧
      byteLength front = (before.getLast?.map (·.span.stop.toNat)).getD 0 ∧
      byteLength (front ++ gap) = t.span.start.toNat ∧ Trivia behind gap := by
  have htiles := Segment.tiles_of_fit (fit_split source.toList) 0
  have hend : IsBoundary source.utf8ByteSize source.toList := ⟨source.toList, [], by simp, by simp⟩
  let last : Lexeme Stretch := ⟨.eof, ⟨source.utf8ByteSize, source.utf8ByteSize⟩⟩
  have htokens : (ofSource source).tokens =
      (lexemesFrom 0 source.toList ++ [last]).map (Lexeme.map Stretch.span) := by
    rw [tokens_ofSource, List.map_append]
    rfl
  have hplaces : placesFrom 0 (split source.toList) =
      (lexemesFrom 0 source.toList ++ [last]).map Lexeme.place := by
    rw [placesFrom, flatMap_text_split, Nat.zero_add, byteLength_toList, List.map_append]
    rfl
  have hlies : ∀ u ∈ lexemesFrom 0 source.toList ++ [last], u.place.LiesOn source.toList := by
    intro u hu
    rcases List.mem_append.1 hu with hu | hu
    · exact (liesOn_of_mem_lexemesFrom hu).1
    · rw [List.mem_singleton.1 hu]
      exact ⟨hend, hend, le_rfl⟩
  rw [htokens] at h
  obtain ⟨before, rest, hcut, rfl, hrest⟩ := List.map_eq_append_iff.1 h
  obtain ⟨t, after, rfl, rfl, -⟩ := List.map_eq_cons_iff.1 hrest
  rw [flatMap_text_split, hplaces, hcut, List.map_append, List.map_cons] at htiles
  obtain ⟨front, gap, behind, hsource, hfront, hstart, htrivia⟩ := htiles.exists_gap rfl
  rw [hcut] at hlies
  refine ⟨front, gap, behind, hsource, ?_, ?_, htrivia⟩
  · rw [← Nat.zero_add (byteLength front), hfront, List.getLast?_map, List.getLast?_map]
    rcases hlast : before.getLast? with _ | u
    · rfl
    · have hu := hlies u (List.mem_append_left _ (List.mem_of_getLast? hlast))
      exact (hu.toNat_stop ha).symm
  · rw [← Nat.zero_add (byteLength (front ++ gap)), hstart]
    exact ((hlies t (List.mem_append_right _ (List.mem_cons_self ..))).toNat_start ha).symm

/-- **The tokens of a source tile it.** The source is read, by byte, to its end. The last token is
the end of the source and no other is; the others are pieces of the source that are not empty and
cut no character in two, one after the other; and what stands in front of a token, from where the
one before it ends, is made of blanks, comments and directives. -/
theorem tiles (ha : Addressable source) :
    ∃ lexing pieces last, ofSource? source = some lexing ∧ lexing.tokens = pieces ++ [last] ∧
      (last.kind = .eof ∧ last.span.start.toNat = source.utf8ByteSize ∧
        last.span.stop.toNat = source.utf8ByteSize) ∧
      (∀ t ∈ pieces, t.kind ≠ .eof ∧ t.span.Marks source) ∧
      pieces.Pairwise (fun t u => t.span.stop.toNat ≤ u.span.start.toNat) ∧
      ∀ before t after, lexing.tokens = before ++ t :: after →
        ∃ front gap behind, source.toList = front ++ (gap ++ behind) ∧
          byteLength front = (before.getLast?.map (·.span.stop.toNat)).getD 0 ∧
          byteLength (front ++ gap) = t.span.start.toNat ∧ Trivia behind gap := by
  have hcovers : ∀ t ∈ lexemesFrom 0 source.toList, t.place.Covers source.toList := fun _ =>
    liesOn_of_mem_lexemesFrom
  have hend : (UInt32.ofNat source.utf8ByteSize).toNat = source.utf8ByteSize :=
    Stretch.toNat_ofNat_of_le ha (byteLength_toList source).ge
  refine ⟨ofSource source, _, _, ofSource?_eq source, tokens_ofSource source, ⟨rfl, hend, hend⟩, ?_,
    ?_, fun before t after h => exists_gap ha h⟩
  · intro t ht
    obtain ⟨u, hu, rfl⟩ := List.mem_map.1 ht
    have hkind : u.kind ≠ .eof := kind_ne_eof_of_mem_lexemesFrom hu
    exact ⟨hkind, (hcovers u hu).marks ha⟩
  · refine List.pairwise_map.2 ((lexemes_pairwise 0 source.toList).imp_of_mem fun ht hu hle => ?_)
    exact ((hcovers _ ht).1.toNat_stop ha).trans_le (hle.trans ((hcovers _ hu).1.toNat_start ha).ge)

/-- A directive over two lines, a character that starts no lexeme, and a comment that is not
closed. -/
theorem tiles_unclosed :
    Addressable "\x60define A \\\n b\nmodule é/* c" ∧
      ∃ lexing, ofSource? "\x60define A \\\n b\nmodule é/* c" = some lexing ∧
        ∀ before t after, lexing.tokens = before ++ t :: after →
          ∃ front gap behind,
          "\x60define A \\\n b\nmodule é/* c".toList = front ++ (gap ++ behind) ∧
            byteLength (front ++ gap) = t.span.start.toNat ∧ Trivia behind gap := by
  have ha : Addressable "\x60define A \\\n b\nmodule é/* c" := by decide
  obtain ⟨lexing, pieces, last, hlexing, -, -, -, -, hgaps⟩ := tiles ha
  refine ⟨ha, lexing, hlexing, fun before t after h => ?_⟩
  obtain ⟨front, gap, behind, hsource, -, hstart, htrivia⟩ := hgaps before t after h
  exact ⟨front, gap, behind, hsource, hstart, htrivia⟩

end Lexing

end VerilogScaffold
