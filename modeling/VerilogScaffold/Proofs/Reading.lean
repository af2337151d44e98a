import VerilogScaffold.Proofs.ByteLexer
import VerilogScaffold.Proofs.Lookup
import VerilogScaffold.Proofs.Scan
import VerilogScaffold.Proofs.Stripping

/-!
# What extraction reads

The end of a source is a token like the others, but neither stripping nor the search for a module
asks for it. Extraction is therefore determined by the outline of the source's other tokens, at
their exact places: `Outline.ofText`. `ofSource?_of_error` and `ofSource?_of_ok` say what extraction
makes of it.
-/

namespace VerilogScaffold

/-- The tokens of a text without its subprogram blocks, at their exact places. -/
def Stripped.ofText (cs : List Char) : Stripped Stretch := ofTokens (lexemesFrom 0 cs)

/-- The outline of a text, at exact places. -/
def Outline.ofText (cs : List Char) : Except (ExtractError Stretch) (Outline Stretch) :=
  ofTokens (Stripped.ofText cs).tokens

/-- The end of a source is kept by stripping. -/
theorem Stripped.ofTokens_ofSource (source : String) :
    ofTokens (Lexing.ofSource source).tokens =
      ((ofText source.toList).map Stretch.span).append
        ⟨[⟨.eof, (⟨source.utf8ByteSize, source.utf8ByteSize⟩ : Stretch).span⟩], []⟩ := by
  rw [tokens_ofSource, ofTokens_append fun u _ => rfl, ofTokens_map]
  rfl

namespace Outline

variable {Place : Type}

/-- The search for a module never asks for the end of the source. -/
theorem ofTokens_append_eof (ts : Tokens Place) {e : Lexeme Place} (he : e.kind = .eof) :
    ofTokens (ts ++ [e]) = ofTokens ts := by
  have hopener : NoOpener [e] := by simp [NoOpener, he]
  have hcloser : NoCloser [e] := by simp [NoCloser, he]
  rcases shapes ts with hnone | ⟨before, opener, body, rfl, hbefore, hopens, hbody⟩ |
    ⟨before, opener, body, closer, rest, rfl, hbefore, hopens, hbody, hcloses⟩
  · rw [ofTokens_append hnone, ofTokens_of_noOpener hnone, ofTokens_of_noOpener hopener]
  · rw [List.append_assoc, List.cons_append, ofTokens_unclosed hbefore hopens hbody,
      ofTokens_unclosed hbefore hopens fun t ht => ?_]
    rcases List.mem_append.1 ht with ht | ht
    · exact hbody t ht
    · exact hcloser t ht
  · rw [List.append_assoc, List.cons_append, List.append_assoc, List.cons_append,
      ofTokens_module hbefore hopens hbody hcloses, ofTokens_module hbefore hopens hbody hcloses]

/-- The outline that extraction reads is the outline of the text, with its places stored. -/
theorem ofTokens_ofSource (source : String) :
    ofTokens (Stripped.ofTokens (Lexing.ofSource source).tokens).tokens =
      ((ofText source.toList).map (Outline.map Stretch.span)).mapError
        (ExtractError.map Stretch.span) := by
  rw [Stripped.ofTokens_ofSource, Stripped.tokens_append, ofTokens_append_eof _ rfl, Stripped.map,
    ofTokens_map, ofText]

end Outline

namespace Extraction

/-- The diagnostics that come before the reading of a module. -/
def earlyDiagnostics (source : String) : List Diagnostic :=
  (Lexing.ofSource source).diagnostics ++
    (Stripped.ofTokens (Lexing.ofSource source).tokens).diagnostics

/-- No step over the bytes of a source fails. -/
theorem ofSource?_eq_ofLexing? (source : String) :
    ofSource? source = ofLexing? source (Lexing.ofSource source) := by
  rw [ofSource?, Lexing.ofSource?_eq, Option.bind_some]

/-- No step over the tokens of a source fails; only the lookups may. -/
theorem ofLexing?_eq (source : String) (lexing : Lexing) :
    ofLexing? source lexing =
      match Outline.ofTokens (Stripped.ofTokens lexing.tokens).tokens with
      | .error e => some ⟨.error e, lexing.diagnostics ++
          (Stripped.ofTokens lexing.tokens).diagnostics ++ [e.diagnostic]⟩
      | .ok outline => do
        let signature ← Signature.ofOutline? source outline
        let onName ← outline.nameDiagnostics? source
        let onRest ← outline.remarkDiagnostics? source
        return ⟨.ok signature, lexing.diagnostics ++
          (Stripped.ofTokens lexing.tokens).diagnostics ++ onName ++ onRest⟩ := by
  simp only [ofLexing?, Stripped.ofTokens?_eq, Outline.ofTokens?_eq, Option.bind_eq_bind,
    Option.bind_some]
  rfl

theorem ofSource?_of_error {source : String} {e : ExtractError Stretch}
    (he : Outline.ofText source.toList = .error e) :
    ofSource? source = some ⟨.error (e.map Stretch.span),
      earlyDiagnostics source ++ [(e.map Stretch.span).diagnostic]⟩ := by
  rw [ofSource?_eq_ofLexing?, ofLexing?_eq, Outline.ofTokens_ofSource, he]
  rfl

theorem ofSource?_of_ok {source : String} {o : Outline Stretch}
    (ho : Outline.ofText source.toList = .ok o) :
    ofSource? source =
      (Signature.ofOutline? source (o.map Stretch.span)).bind fun signature =>
      ((o.map Stretch.span).nameDiagnostics? source).bind fun onName =>
      ((o.map Stretch.span).remarkDiagnostics? source).bind fun onRest =>
        some ⟨.ok signature, earlyDiagnostics source ++ onName ++ onRest⟩ := by
  rw [ofSource?_eq_ofLexing?, ofLexing?_eq, Outline.ofTokens_ofSource, ho]
  rfl

/-- What an extraction is put together from: the early diagnostics, and then an error with its
diagnostic, or what is looked up for an outline. -/
theorem exists_parts {source : String} {x : Extraction} (hx : ofSource? source = some x) :
    (∃ e, Outline.ofText source.toList = .error e ∧
      x = ⟨.error (e.map Stretch.span),
        earlyDiagnostics source ++ [(e.map Stretch.span).diagnostic]⟩) ∨
    ∃ o signature onName onRest, Outline.ofText source.toList = .ok o ∧
      Signature.ofOutline? source (o.map Stretch.span) = some signature ∧
      (o.map Stretch.span).nameDiagnostics? source = some onName ∧
      (o.map Stretch.span).remarkDiagnostics? source = some onRest ∧
      x = ⟨.ok signature, earlyDiagnostics source ++ onName ++ onRest⟩ := by
  rcases ho : Outline.ofText source.toList with e | o
  · rw [ofSource?_of_error ho] at hx
    exact .inl ⟨e, rfl, (Option.some.inj hx).symm⟩
  · rw [ofSource?_of_ok ho] at hx
    obtain ⟨signature, hsignature, hx⟩ := Option.bind_eq_some_iff.1 hx
    obtain ⟨onName, honName, hx⟩ := Option.bind_eq_some_iff.1 hx
    obtain ⟨onRest, honRest, hx⟩ := Option.bind_eq_some_iff.1 hx
    exact .inr ⟨o, signature, onName, onRest, rfl, hsignature, honName, honRest,
      (Option.some.inj hx).symm⟩

/-- Where a signature comes from. -/
theorem exists_outline_of_ofSource? {source : String} {x : Extraction} {s : Signature}
    (hx : ofSource? source = some x) (hs : x.result = .ok s) :
    ∃ o, Outline.ofText source.toList = .ok o ∧
      Signature.ofOutline? source (o.map Stretch.span) = some s ∧
      (∃ ds, (o.map Stretch.span).nameDiagnostics? source = some ds) ∧
      ∃ ds, (o.map Stretch.span).remarkDiagnostics? source = some ds := by
  rcases exists_parts hx with ⟨e, -, rfl⟩ |
    ⟨o, signature, onName, onRest, ho, hsignature, honName, honRest, rfl⟩
  · cases hs
  · obtain rfl := Except.ok.inj hs
    exact ⟨o, ho, hsignature, ⟨onName, honName⟩, onRest, honRest⟩

/-- A signature is never the stand-in for a failed lookup. -/
theorem ofSource?_of_result_ok {source : String} {s : Signature}
    (h : (ofSource source).result = .ok s) : ∃ x, ofSource? source = some x ∧ x.result = .ok s := by
  rcases hx : ofSource? source with _ | x
  · rw [ofSource, hx] at h
    cases h
  · rw [ofSource, hx] at h
    exact ⟨x, rfl, h⟩

/-- The signature of a source is looked up from the outline that extraction reads. -/
theorem ofOutline?_of_ofTokens {source : String} {x : Extraction} (hx : ofSource? source = some x)
    {o : Outline Span}
    (ho : Outline.ofTokens (Stripped.ofTokens (Lexing.ofSource source).tokens).tokens = .ok o) :
    ∃ s, Signature.ofOutline? source o = some s ∧ x.result = .ok s := by
  simp only [ofSource?_eq_ofLexing?, ofLexing?_eq, ho, Option.bind_eq_bind] at hx
  obtain ⟨signature, hsignature, hx⟩ := Option.bind_eq_some_iff.1 hx
  obtain ⟨onName, -, hx⟩ := Option.bind_eq_some_iff.1 hx
  obtain ⟨onRest, -, hx⟩ := Option.bind_eq_some_iff.1 hx
  obtain rfl := Option.some.inj hx
  exact ⟨signature, hsignature, rfl⟩

theorem ofOutline?_of_ofSource? {source : String} {x : Extraction} (hx : ofSource? source = some x)
    {o : Outline Stretch} (ho : Outline.ofText source.toList = .ok o) :
    ∃ s, Signature.ofOutline? source (o.map Stretch.span) = some s ∧ x.result = .ok s :=
  ofOutline?_of_ofTokens hx (by rw [Outline.ofTokens_ofSource, ho]; rfl)

/-- The result of an extraction, without the place of an error. -/
def outcome (x : Extraction) : Except (ExtractError Unit) Signature :=
  x.result.mapError (ExtractError.map fun _ => ())

/-- Two sources have the same outcome if they have the same outline, up to the places of its tokens,
and what the outline asks for in one source is found in the other. -/
theorem outcome_eq_of_carries {P : Type} {a b : String} {φ ψ : P → Stretch}
    {r : Except (ExtractError P) (Outline P)}
    (ha : Outline.ofText a.toList = (r.map (Outline.map φ)).mapError (ExtractError.map φ))
    (hb : Outline.ofText b.toList = (r.map (Outline.map ψ)).mapError (ExtractError.map ψ))
    (hname : ∀ o, r = .ok o →
      ∃ p, p o.name.place ∧ Carries a b (fun x => (φ x).span) (fun x => (ψ x).span) p)
    (hfindings : ∀ o, r = .ok o → ∀ x ∈ o.findings,
      ∃ p, x.Forall p ∧ Carries a b (fun x => (φ x).span) (fun x => (ψ x).span) p)
    {x y : Extraction} (hx : ofSource? a = some x) (hy : ofSource? b = some y) :
    x.outcome = y.outcome := by
  rcases r with e | o
  · rw [ofSource?_of_error ha] at hx
    rw [ofSource?_of_error hb] at hy
    obtain rfl := Option.some.inj hx
    obtain rfl := Option.some.inj hy
    show Except.error ((e.map φ |>.map Stretch.span).map fun _ => ()) =
      Except.error ((e.map ψ |>.map Stretch.span).map fun _ => ())
    simp only [ExtractError.map_map]
  · obtain ⟨s, hs, hresult⟩ := ofOutline?_of_ofSource? hx ha
    obtain ⟨s', hs', hresult'⟩ := ofOutline?_of_ofSource? hy hb
    rw [Outline.map_map] at hs hs'
    have hsame := Signature.ofOutline?_of_carries (hname o rfl) (hfindings o rfl) hs
    rw [hs'] at hsame
    obtain rfl := Option.some.inj hsame
    rw [outcome, outcome, hresult, hresult']

/-! ## Tokens of a text lie on it -/

/-- A token that stripping keeps lies on the text, and is not empty. -/
theorem liesOn_of_mem_ofText {cs : List Char} {t : Lexeme Stretch}
    (h : t ∈ (Stripped.ofText cs).tokens) :
    t.place.LiesOn cs ∧ t.place.start < t.place.stop :=
  liesOn_of_mem_lexemesFrom ((Stripped.tokens_sublist _).subset h)

/-- Reading an addressable source gives a result: no lookup fails. -/
theorem exists_ofSource? {source : String} (h : Addressable source) :
    ∃ x, ofSource? source = some x := by
  rcases ho : Outline.ofText source.toList with e | o
  · exact ⟨_, ofSource?_of_error ho⟩
  · have hforall : o.Forall (·.LiesOn source.toList) :=
      Outline.ofTokens_forall (fun t ht => (liesOn_of_mem_ofText ht).1) ho
    obtain ⟨s, hs⟩ := Signature.exists_ofOutline? (found_span h) hforall
    obtain ⟨onName, honName⟩ := Outline.exists_nameDiagnostics? (found_span h) hforall
    obtain ⟨onRest, honRest⟩ := Outline.exists_remarkDiagnostics? (found_span h) hforall
    refine ⟨⟨.ok s, earlyDiagnostics source ++ onName ++ onRest⟩, ?_⟩
    rw [ofSource?_of_ok ho, hs, honName, honRest]
    rfl

end Extraction

end VerilogScaffold
