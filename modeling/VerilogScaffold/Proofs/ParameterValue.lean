import VerilogScaffold.Proofs.LayoutIndependence
import VerilogScaffold.Proofs.TokenEnd

/-!
# Values are trimmed expressions

The value of a parameter is what the source says from the start of one token to the end of another.
The tokens between them, as stripping leaves them, are an expression (`Outline.IsExpression`): no
statement ends among them, no bracket is closed that they do not open, and outside all brackets
nothing separates them.

A value has no blank at either end unless the token there has one (`Extent.Spells`). That is the
only way in which values are trimmed: nothing is cut off the text between the tokens. So the gap
that a number takes behind its base is part of the value, though no digits follow it
(`Extraction.not_forall_trimmed`).

## Shape of the argument

Where the value starts and ends is read off the sites of its tokens (`Segment.lexemes_pairwise`),
and the span and the text of each token come from its site.
-/

namespace VerilogScaffold

open Text

/-! ## Expressions -/

namespace Outline

variable {P : Type} {run : Tokens P}

/-- A run of tokens that is an expression. -/
structure IsExpression (run : Tokens P) (e : Extent P) : Prop where
  extent : extent? run = some e
  matched : ∀ front, front <+: run →
    Header.count TokenKind.isClosing front ≤ Header.count TokenKind.isOpening front
  statement : ∀ t ∈ run, t.kind ≠ .semicolon
  joined : Header.Joined 0 run

/-- What one token of an expression does to the depth. It is no semicolon, and outside all brackets
it separates nothing. -/
theorem count_of_depthAfter? {depth d : Nat} {t : Lexeme P}
    (h : depthAfter? depth t.kind = some d) :
    Header.count TokenKind.isClosing [t] + d = depth + Header.count TokenKind.isOpening [t] ∧
      t.kind ≠ .semicolon ∧ (depth = 0 → t.kind.isSeparator = false) := by
  rcases t with ⟨kind, place⟩
  revert h
  fun_cases depthAfter? depth kind <;>
    simp_all [Header.count, TokenKind.isClosing, TokenKind.isOpening,
      TokenKind.isSeparator, Nat.add_comm]
  -- a separator, which does not end an expression inside brackets
  all_goals
    rintro rfl
    assumption

/-- The tokens of an expression that starts at some depth close no more than is open, and hold no
semicolon and no separator outside all brackets. -/
theorem bounds_of_splitExpression {depth : Nat} (h : splitExpression depth run = (run, [])) :
    (∀ front, front <+: run → Header.count TokenKind.isClosing front ≤
        depth + Header.count TokenKind.isOpening front) ∧
      (∀ t ∈ run, t.kind ≠ .semicolon) ∧ Header.Joined depth run := by
  induction run generalizing depth with
  | nil =>
    refine ⟨fun front hfront => ?_, by simp, fun before t hbefore => ?_⟩
    · rw [List.prefix_nil.1 hfront]
      exact Nat.zero_le _
    · simp at hbefore
  | cons t ts ih =>
    rw [splitExpression] at h
    split at h
    · rename_i d hd
      obtain ⟨hfst, hsnd⟩ := Prod.mk.inj h
      obtain ⟨hmatched, hstatement, hjoined⟩ := ih (Prod.ext (List.cons.inj hfst).2 hsnd)
      obtain ⟨hcount, hsemicolon, hseparator⟩ := count_of_depthAfter? hd
      refine ⟨fun front hfront => ?_, List.forall_mem_cons.2 ⟨hsemicolon, hstatement⟩,
        fun before u hbefore hdepth => ?_⟩
      · rcases front with _ | ⟨u, front⟩
        · exact Nat.zero_le _
        · obtain ⟨rfl, hrest⟩ := List.cons_prefix_cons.1 hfront
          have := hmatched front hrest
          rw [Header.count_cons TokenKind.isClosing, Header.count_cons TokenKind.isOpening]
          omega
      · rcases before with _ | ⟨v, before⟩
        · obtain ⟨rfl, -⟩ := List.cons_prefix_cons.1 hbefore
          exact hseparator hdepth.symm
        · obtain ⟨rfl, hrest⟩ := List.cons_prefix_cons.1 hbefore
          rw [Header.count_cons TokenKind.isClosing,
            Header.count_cons TokenKind.isOpening] at hdepth
          exact hjoined before u hrest (by omega)
    · cases congrArg Prod.fst h

/-- A run that is its own expression. -/
theorem isExpression_of_splitExpression {e : Extent P} (he : extent? run = some e)
    (h : splitExpression 0 run = (run, [])) : IsExpression run e := by
  obtain ⟨hmatched, hstatement, hjoined⟩ := bounds_of_splitExpression h
  exact ⟨he, fun front hfront => by simpa using hmatched front hfront, hstatement, hjoined⟩

theorem mem_of_extent? {e : Extent P} (he : extent? run = some e) :
    e.first ∈ run ∧ e.last ∈ run := by
  refine ⟨?_, List.mem_of_getLast? (getLast?_of_extent? he)⟩
  rcases run with _ | ⟨t, ts⟩
  · cases he
  · obtain rfl := Option.some.inj he
    exact List.mem_cons_self ..

end Outline

/-! ## Where a run of tokens starts and ends -/

/-- Tokens stand behind each other. -/
theorem Segment.lexemes_pairwise (behind : List Char) (segments : List Segment) :
    (lexemes behind segments).Pairwise fun t u => u.place.here <:+ t.place.after := by
  induction segments with
  | nil => exact .nil
  | cons s rest ih =>
    rw [lexemes]
    split
    · exact .cons (fun u hu => (liesOn_of_mem_lexemes hu).here) ih
    · exact ih

/-- The text of a run of tokens starts with its first token and ends with its last. -/
theorem Extent.exists_text_eq {cs : List Char} {ts : List (Lexeme Site)}
    (hts : ts.Sublist (lexemes cs))
    {e : Extent Site} (he : e.InOrder ts) (hfirst : e.first ∈ ts) (hlast : e.last ∈ ts) :
    ∃ front back, e.text = e.first.place.text ++ back ∧ e.text = front ++ e.last.place.text := by
  have hfirst := liesOn_of_mem_lexemes (hts.subset hfirst)
  have hlast := liesOn_of_mem_lexemes (hts.subset hlast)
  have horder : e.last.place.here <:+ e.first.place.here ∧
      e.last.place.after <:+ e.first.place.after := by
    rcases he with heq | hsublist
    · rw [heq]
      exact ⟨List.suffix_refl _, List.suffix_refl _⟩
    · have hpairwise :=
        (Segment.lexemes_pairwise [] (Segment.split cs)).sublist (hsublist.trans hts)
      have hbehind : e.last.place.here <:+ e.first.place.after := by simpa using hpairwise
      exact ⟨hbehind.trans hfirst.after, hlast.after.trans hbehind⟩
  have hwhole : e.text ++ e.last.place.after = e.first.place.here := by
    have hmerge := hfirst.merge hlast
    rw [Site.merge_eq horder.1 horder.2] at hmerge
    rw [Extent.text, Site.merge_eq horder.1 horder.2]
    exact hmerge.text_append_after
  obtain ⟨back, hback⟩ := horder.2
  obtain ⟨front, hfront⟩ := horder.1
  refine ⟨front, back, (List.append_left_inj e.last.place.after).1 ?_,
    (List.append_left_inj e.last.place.after).1 ?_⟩
  · rw [hwhole, List.append_assoc, hback, hfirst.text_append_after]
  · rw [hwhole, List.append_assoc, hlast.text_append_after, hfront]

/-! ## Values -/

/-- A text that is what a source says along a run of tokens. It has no blank at its start unless its
first token is a blank, and none at its end unless its last token ends in one. -/
structure Extent.Spells (source : String) (e : Extent Span) (text : String) : Prop where
  verbatim : e.reach.text? source = some text
  ne_empty : text ≠ ""
  leading : startsInBlank text.toList = true →
    e.first.kind = .error ∧ ∃ c, e.first.span.text? source = some (String.ofList [c]) ∧
      isAsciiBlank c = false
  trailing : endsInBlank text.toList = true →
    ∃ last, e.last.span.text? source = some (String.ofList last) ∧ e.last.kind.EndsInBlank last

namespace Extraction

variable {source : String}

/-- A place of a source, as it is stored. -/
def storedAt (source : String) (p : Site) : Span := (p.stretch (byteLength source.toList)).span

/-- The kept tokens are those that stripping leaves of the text, and the end of the source. -/
theorem exists_keptTokens_eq (source : String) :
    ∃ eof, keptTokens source =
      (Stripped.read source.toList).tokens.map (Lexeme.map (storedAt source)) ++ [eof] := by
  refine ⟨⟨.eof, (⟨source.utf8ByteSize, source.utf8ByteSize⟩ : Stretch).span⟩, ?_⟩
  rw [keptTokens, Stripped.ofTokens_ofSource, Stripped.tokens_append, Stripped.ofText,
    lexemesFrom_zero, Stripped.ofTokens_map, Stripped.map, Stripped.map, List.map_map]
  rfl

/-- Where a run of kept tokens is stored is from the start of the first to the end of the last, as
they stand in order. -/
theorem span_map_storedAt (ha : Addressable source) {ts : List (Lexeme Site)}
    (hts : ts.Sublist (Stripped.read source.toList).tokens) {e : Extent Site}
    (he : Outline.extent? ts = some e) :
    (e.map (storedAt source)).span = (e.map (storedAt source)).reach := by
  have hordered : (keptTokens source).Pairwise Precedes :=
    (Lexing.tokens_pairwise ha).sublist (Stripped.tokens_sublist _)
  obtain ⟨eof, hkept⟩ := exists_keptTokens_eq source
  have hmap : (ts.map (Lexeme.map (storedAt source))).Sublist (keptTokens source) := by
    rw [hkept]
    exact (hts.map _).trans (List.sublist_append_left _ _)
  refine Extent.span_eq_reach (hordered.sublist hmap) (Outline.inOrder_of_extent? ?_)
  rw [Outline.extent?_map, he, Option.map_some]

/-- What a run of kept tokens says. -/
theorem spells_map (ha : Addressable source) {ts : List (Lexeme Site)}
    (hts : ts.Sublist (Stripped.read source.toList).tokens) {e : Extent Site}
    (he : Outline.extent? ts = some e) :
    (e.map (storedAt source)).Spells source (String.ofList e.text) := by
  have hlexemes : ts.Sublist (lexemes source.toList) := hts.trans (Stripped.tokens_sublist _)
  obtain ⟨hfirst, hlast⟩ := Outline.mem_of_extent? he
  have horder := Outline.inOrder_of_extent? he
  obtain ⟨front, back, hstart, hend⟩ := Extent.exists_text_eq hlexemes horder hfirst hlast
  have hon : ∀ t ∈ ts, t.place.LiesOn source.toList := fun t ht =>
    liesOn_of_mem_lexemes (hlexemes.subset ht)
  have htext : ∀ t ∈ ts, (storedAt source t.place).text? source =
      some (String.ofList t.place.text) :=
    fun t ht => (hon t ht).text?_span ha
  obtain ⟨s, F, hfits, hkind, hs⟩ := exists_fits_of_mem_lexemes (hlexemes.subset hfirst)
  obtain ⟨s', F', hfits', hkind', hs'⟩ := exists_fits_of_mem_lexemes (hlexemes.subset hlast)
  rw [hs] at hstart
  rw [hs'] at hend
  refine ⟨?_, ?_, fun hblank => ?_, fun hblank => ?_⟩
  · rw [← span_map_storedAt ha hts he]
    exact text?_span_map ha ⟨hon _ hfirst, hon _ hlast⟩
  · intro hempty
    have hnil : e.text = [] := by simpa using congrArg String.toList hempty
    rw [hstart] at hnil
    exact hfits.text_ne_nil (List.append_eq_nil_iff.1 hnil).1
  · rw [String.toList_ofList, hstart] at hblank
    have hfirstBlank : startsInBlank s.text = true := by
      rwa [startsInBlank, List.head?_append_of_ne_nil _ hfits.text_ne_nil] at hblank
    obtain ⟨herror, c, hc, hinside⟩ := hfits.isStray_of_startsInBlank hkind hfirstBlank
    refine ⟨herror, c, ?_, hinside⟩
    rw [← hc, ← hs]
    exact htext _ hfirst
  · rw [String.toList_ofList, hend, endsInBlank_append hfits'.text_ne_nil] at hblank
    refine ⟨s'.text, ?_, hfits'.endsInBlank hkind' hblank⟩
    rw [← hs']
    exact htext _ hlast

/-- **Values are trimmed expressions.** The value of a parameter is an expression of kept tokens, as
the source spells it from the start of the first token to the end of the last. It starts or ends
with a blank only where a token does. -/
theorem exists_isExpression_of_parameter (ha : Addressable source) {s : Signature}
    (hs : (ofSource source).result = .ok s) {p : Parameter} (hp : p ∈ s.parameters) :
    ∃ before run after e, keptTokens source = before ++ (run ++ after) ∧
      Outline.IsExpression run e ∧
      e.Spells source p.value := by
  obtain ⟨o, ho, rfl⟩ := exists_read_of_result ha (ofSource?_eq ha) hs
  obtain ⟨name, value, hfound, rfl⟩ := Signature.exists_of_mem_parameters hp
  obtain ⟨-, before, body, after, hbody, -, hfindings⟩ := Outline.exists_body_of_ok ho
  obtain ⟨-, -, front, equals, run, back, rfl, hvalue, hwhole⟩ := hfindings _ hfound
  obtain ⟨eof, hkept⟩ := exists_keptTokens_eq source
  have hcut : (Stripped.read source.toList).tokens =
      before ++ (front ++ [name, equals]) ++ (run ++ (back ++ after)) := by
    rw [hbody]
    simp
  have hexpression : Outline.IsExpression (run.map (Lexeme.map (storedAt source)))
      (value.map (storedAt source)) := by
    refine Outline.isExpression_of_splitExpression ?_ ?_
    · rw [Outline.extent?_map, hvalue, Option.map_some]
    · rw [Outline.splitExpression_map, hwhole, List.map_nil]
  have hrun : run.Sublist (Stripped.read source.toList).tokens := by
    rw [hcut]
    exact (List.sublist_append_left run _).trans (List.sublist_append_right _ _)
  refine ⟨(before ++ (front ++ [name, equals])).map (Lexeme.map (storedAt source)), _,
    (back ++ after).map (Lexeme.map (storedAt source)) ++ [eof], _, ?_, hexpression,
    spells_map ha hrun hvalue⟩
  rw [hkept, hcut]
  simp only [List.map_append, List.append_assoc]

/-- A value with brackets, separators inside them, and a based number whose digits stand apart. -/
theorem exists_isExpression_of_parameter_braces :
    ∃ before run after e,
      keptTokens "module m; parameter A = \x7bf(1, 2), 4 'h F\x7d ; endmodule" =
        before ++ (run ++ after) ∧
        Outline.IsExpression run e ∧
          e.Spells "module m; parameter A = \x7bf(1, 2), 4 'h F\x7d ; endmodule"
            "\x7bf(1, 2), 4 'h F\x7d" := by
  have hresult : (ofSource "module m; parameter A = \x7bf(1, 2), 4 'h F\x7d ; endmodule").result =
      .ok ⟨"m", [⟨"A", "\x7bf(1, 2), 4 'h F\x7d"⟩], [], [], []⟩ := by
    rw [ofSource, ofSource?_eq_ofLexing?]
    cbv
  exact exists_isExpression_of_parameter (by decide) hresult (List.mem_singleton.2 rfl)

/-- The gap behind the base of a number without digits is left at the end of a value. -/
theorem not_forall_trimmed :
    ¬∀ (source : String) (s : Signature), Addressable source → (ofSource source).result = .ok s →
      ∀ p ∈ s.parameters, endsInBlank p.value.toList = false := by
  intro h
  have hresult : (ofSource "module m; parameter A = 8'h ; endmodule").result =
      .ok ⟨"m", [⟨"A", "8'h "⟩], [], [], []⟩ := by
    rw [ofSource, ofSource?_eq_ofLexing?]
    cbv
  exact absurd (h _ _ (by decide) hresult _ (List.mem_singleton.2 rfl)) (by decide)

end Extraction

end VerilogScaffold
