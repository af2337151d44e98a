import VerilogScaffold.Proofs.Excerpt

/-!
# What can be read again

A source is clean if extraction reports no error and no block that is left open. The names of a
clean source are names, and its values and ranges are excerpts, so each of them is read again
wherever it is copied to: `Signature.Legible`.
-/

namespace VerilogScaffold

open Segment

/-! ## Clean sources -/

/-- Whether extraction reports no error and no block that is left open. -/
def Extraction.Clean (x : Extraction) : Prop :=
  ∀ d ∈ x.diagnostics, d.severity ≠ .error ∧ d.code ≠ ⟨.warning, 304⟩

instance (x : Extraction) : Decidable x.Clean :=
  inferInstanceAs (Decidable (∀ d ∈ x.diagnostics, _))

namespace Extraction

variable {source : String}

theorem earlyDiagnostics_subset {x : Extraction} (hx : ofSource? source = some x) {s : Signature}
    (hs : x.result = .ok s) : earlyDiagnostics source ⊆ x.diagnostics := by
  rcases exists_parts hx with ⟨e, -, rfl⟩ | ⟨o, signature, onName, onRest, -, -, -, -, rfl⟩
  · cases hs
  · exact fun d hd => List.mem_append_left _ (List.mem_append_left _ hd)

/-- A clean source has no malformed text and leaves no block open. -/
theorem Clean.faultless {x : Extraction} (h : x.Clean) (hx : ofSource? source = some x)
    {s : Signature} (hs : x.result = .ok s) :
    (∀ s ∈ split source.toList, s.kind.isFault = false) ∧
      (Stripped.read source.toList).unclosed = [] := by
  have hearly := earlyDiagnostics_subset hx hs
  constructor
  · refine diagnostics_eq_nil_iff.1 (List.eq_nil_iff_forall_not_mem.2 fun d hd => ?_)
    exact (h d (hearly (List.mem_append_left _ hd))).1 (Lexing.isError_of_mem hd).1
  · have hunclosed : (Stripped.ofTokens (Lexing.ofSource source).tokens).unclosed = [] := by
      refine List.eq_nil_iff_forall_not_mem.2 fun u hu => ?_
      exact (h _ (hearly (List.mem_append_right _ (List.mem_map.2 ⟨u, hu, rfl⟩)))).2 rfl
    rw [Stripped.ofTokens_ofSource, Stripped.ofText, lexemesFrom_zero,
      Stripped.ofTokens_map] at hunclosed
    simpa [Stripped.map, Stripped.read] using hunclosed

end Extraction

/-! ## Values and ranges -/

namespace Outline

variable {P : Type}

/-- Where an expression ends depends on the kinds of its tokens alone. -/
theorem splitExpression_of_map_kind {depth : Nat} {ts us : Tokens P}
    (hkinds : us.map Lexeme.kind = ts.map Lexeme.kind) (hts : splitExpression depth ts = (ts, [])) :
    splitExpression depth us = (us, []) := by
  induction ts generalizing depth us with
  | nil =>
    obtain rfl := List.map_eq_nil_iff.1 hkinds
    rfl
  | cons t ts ih =>
    obtain ⟨u, us, rfl, hu, hus⟩ := List.map_eq_cons_iff.1 hkinds
    rw [splitExpression] at hts ⊢
    rw [hu]
    split at hts
    · obtain ⟨hfst, hsnd⟩ := Prod.mk.inj hts
      rw [ih hus (Prod.ext (List.cons.inj hfst).2 hsnd)]
    · cases congrArg Prod.fst hts

theorem noCloser_of_map_kind {ts us : Tokens P} (hkinds : us.map Lexeme.kind = ts.map Lexeme.kind)
    (hts : NoCloser ts) : NoCloser us := by
  intro u hu
  have hmem : u.kind ∈ ts.map Lexeme.kind := hkinds ▸ List.mem_map_of_mem hu
  obtain ⟨t, ht, hkind⟩ := List.mem_map.1 hmem
  rw [← hkind]
  exact hts t ht

end Outline

/-- A parameter of a source whose name and value can be read again, as the kinds of token that they
are in the source. -/
structure Parameter.Legible (cs : List Char) (p : Parameter) : Prop where
  name : NamedIn cs p.name
  value : ∃ run, Excerpt p.value.toList run ∧ Outline.splitExpression 0 run = (run, []) ∧
    Outline.NoCloser run
  kinds : (lexemes p.value.toList).map Lexeme.kind <:+: (lexemes cs).map Lexeme.kind

/-- A port of a source whose name can be read again, and its range if it has one. -/
structure Port.Legible (cs : List Char) (p : Port) : Prop where
  name : NamedIn cs p.name
  range : p.range = "" ∨ ∃ run, Excerpt p.range.toList run ∧ Outline.NoCloser run ∧
    ∃ t ∈ run.getLast?, t.kind = .closing .square

/-- A signature that can be read again. -/
structure Signature.Legible (cs : List Char) (s : Signature) :
    Prop extends Signature.Named cs s where
  parameter : ∀ p ∈ s.parameters, p.Legible cs
  port : ∀ d, ∀ p ∈ s.ports d, p.Legible cs

/-- **What a clean source says can be read again.** -/
theorem Extraction.Clean.legible {source : String} (ha : Addressable source) {x : Extraction}
    (hx : ofSource? source = some x) {s : Signature} (hs : x.result = .ok s) (h : x.Clean) :
    s.Legible source.toList := by
  obtain ⟨hfaultless, hunclosed⟩ := h.faultless hx hs
  obtain ⟨o, ho, rfl⟩ := exists_read_of_result ha hx hs
  have hnamed := Signature.named_ofSites ho
  obtain ⟨-, before, body, after, hbody, hcloser, hfindings⟩ := Outline.exists_body_of_ok ho
  have hread : Stripped.read source.toList = ⟨before ++ (body ++ after), []⟩ := by
    rw [← hbody, ← hunclosed]
  -- a run of tokens in the body is read again as it was read there
  have hexcerpt : ∀ {front run back : List (Lexeme Site)} {e : Extent Site},
      body = front ++ (run ++ back) →
      Outline.extent? run = some e → ∃ run', Excerpt (String.ofList e.text).toList run' ∧
        Outline.NoCloser run' ∧ run'.map Lexeme.kind = run.map Lexeme.kind ∧
        (lexemes (String.ofList e.text).toList).map Lexeme.kind <:+:
          (lexemes source.toList).map Lexeme.kind := by
    intro front run back e hcut he
    rw [hcut] at hread hcloser
    have hcut' : before ++ (front ++ (run ++ back) ++ after) =
        before ++ front ++ (run ++ (back ++ after)) := by simp
    rw [hcut'] at hread
    obtain ⟨run', F, hrun', rfl, hinfix⟩ := exists_excerpt hfaultless hread he
    have hkinds : run'.map Lexeme.kind =
        (run'.map (Lexeme.map (Site.append F))).map Lexeme.kind := by
      rw [List.map_map]
      rfl
    rw [String.toList_ofList]
    refine ⟨run', hrun', Outline.noCloser_of_map_kind hkinds ?_, hkinds, hinfix⟩
    exact fun t ht => hcloser t (List.mem_append_right _ (List.mem_append_left _ ht))
  refine ⟨hnamed, fun p hp => ?_, fun d p hp => ?_⟩
  · obtain ⟨n, value, hfound, rfl⟩ := Signature.exists_of_mem_parameters hp
    obtain ⟨-, -, front, equals, run, back, hcut, hvalue, hwhole⟩ := hfindings _ hfound
    obtain ⟨run', hrun', hcloser', hkinds, hinfix⟩ :=
      hexcerpt (hcut.trans (by simp : _ = front ++ [n, equals] ++ (run ++ back))) hvalue
    exact ⟨hnamed.parameters _ hp,
      ⟨run', hrun', Outline.splitExpression_of_map_kind hkinds hwhole, hcloser'⟩, hinfix⟩
  · refine ⟨hnamed.ports d p hp, ?_⟩
    obtain ⟨n, range, hfound, rfl⟩ := Signature.exists_of_mem_ports hp
    rcases range with _ | e
    · exact .inl rfl
    · obtain ⟨-, -, hspans⟩ := hfindings _ hfound
      obtain ⟨front, run, back, hcut, hrange⟩ := hspans e rfl
      obtain ⟨run', hrun', hcloser', hkinds, -⟩ := hexcerpt hcut hrange.extent
      refine .inr ⟨run', hrun', hcloser', ?_⟩
      have hlast := congrArg List.getLast? hkinds
      rw [List.getLast?_map, List.getLast?_map, Outline.getLast?_of_extent? hrange.extent] at hlast
      obtain ⟨t, ht, hkind⟩ := Option.map_eq_some_iff.1 hlast
      exact ⟨t, ht, hkind.trans hrange.last⟩

end VerilogScaffold
