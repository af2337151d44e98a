import VerilogScaffold.Proofs.Failure

/-!
# Signatures are well formed

Every name of a signature is a name in the sense of the lexer (`IsName`), and every range is empty
or what the source says from an opening to a closing square bracket that are balanced between
(`IsRangeOf`). A bracket that is never closed gives no range: after it no name can follow, so there
is no port to attach it to (`Outline.splitType_spans`).

Brackets are counted among the tokens that stripping keeps. A range is cut out of the source as it
stands there, together with any block that was taken out of it, and the brackets of that block may
well be unbalanced: `not_forall_closed_range`.
-/

namespace VerilogScaffold

open Outline

/-- Whether a text is what the source says along a run of kept tokens that is a range. -/
def IsRangeOf (source : String) (text : String) : Prop :=
  ∃ before run after e, Extraction.keptTokens source = before ++ (run ++ after) ∧ IsRange run e ∧
    e.span.text? source = some text

/-- What a port is to have: a name, and a range or none. -/
structure Port.WellFormed (source : String) (p : Port) : Prop where
  name : IsName p.name.toList
  range : p.range = "" ∨ IsRangeOf source p.range

/-- What a signature is to have. -/
structure Signature.WellFormed (source : String) (s : Signature) : Prop where
  name : IsName s.name.toList
  parameters : ∀ p ∈ s.parameters, IsName p.name.toList
  ports : ∀ d, ∀ p ∈ s.ports d, p.WellFormed source

namespace Extraction

variable {source : String}

/-- A signature is looked up from the outline of the kept tokens. -/
theorem exists_outline_of_result (ha : Addressable source) {s : Signature}
    (hs : (ofSource source).result = .ok s) :
    ∃ o, ofTokens (keptTokens source) = .ok o ∧
      (o.findings.filterMap Finding.parameter?).mapM (Signature.parameterAt? source) =
        some s.parameters ∧
      ∀ d, (o.findings.filterMap (Finding.port? d)).mapM (Signature.portAt? source) =
        some (s.ports d) := by
  rcases report_cases ha with ⟨e, -, hx⟩ | ⟨o, s', late, ho, hx, -⟩
  · rw [hx] at hs
    cases hs
  · obtain ⟨s'', hs'', hresult⟩ := ofOutline?_of_ofTokens (ofSource?_eq ha) ho
    rw [hs] at hresult
    obtain rfl := Except.ok.inj hresult
    obtain ⟨name, -, hfindings⟩ := Option.bind_eq_some_iff.1 hs''
    exact ⟨o, ho, (Signature.eq_of_consFindings? hfindings).2⟩

/-- The range of a port is empty or a range of the source. -/
theorem isRangeOf_range (ha : Addressable source) {s : Signature}
    (hs : (ofSource source).result = .ok s)
    {d : Direction} {p : Port} (hp : p ∈ s.ports d) : p.range = "" ∨ IsRangeOf source p.range := by
  obtain ⟨o, ho, -, hports⟩ := exists_outline_of_result ha hs
  obtain ⟨-, before, body, after, hkept, -, hfindings⟩ := exists_body_of_ok ho
  obtain ⟨⟨name, range⟩, hmem, hport⟩ := mem_of_mapM_eq_some (hports d) hp
  have hx := Finding.mem_filterMap_port?.1 hmem
  obtain ⟨_, -, hport⟩ := Option.bind_eq_some_iff.1 hport
  obtain ⟨text, htext, hport⟩ := Option.bind_eq_some_iff.1 hport
  obtain rfl := Option.some.inj hport
  rcases range with _ | e
  · exact .inl (Option.some.inj htext).symm
  · obtain ⟨front, run, back, rfl, hrange⟩ := (hfindings _ hx).2.2 e rfl
    exact .inr ⟨before ++ front, run, back ++ after, e, by simp [hkept], hrange, htext⟩

/-- **Every signature is well formed.** -/
theorem wellFormed (ha : Addressable source) {s : Signature}
    (hs : (ofSource source).result = .ok s) :
    s.WellFormed source := by
  have hnamed := named ha (ofSource?_eq ha) hs
  exact
    { name := hnamed.name.isName
      parameters := fun p hp => (hnamed.parameters p hp).isName
      ports := fun d p hp => ⟨(hnamed.ports d p hp).isName, isRangeOf_range ha hs hp⟩ }

/-- A module with an escaped name and a range of two groups. -/
theorem wellFormed_groups :
    Addressable "module \\m+ (input [1:0] wire [f[0]:0] a); endmodule" ∧
      (⟨"\\m+", [], [⟨"a", "[1:0] wire [f[0]:0]"⟩], [], []⟩ : Signature).WellFormed
        "module \\m+ (input [1:0] wire [f[0]:0] a); endmodule" :=
  have ha : Addressable "module \\m+ (input [1:0] wire [f[0]:0] a); endmodule" := by decide
  ⟨ha, wellFormed ha (by rw [ofSource, ofSource?_eq_ofLexing?]; cbv)⟩

/-- With the brackets of a block that was taken out of it, a range need not be balanced. -/
theorem not_forall_closed_range :
    ¬ ∀ (source : String) (s : Signature), Addressable source → (ofSource source).result = .ok s →
      ∀ d, ∀ p ∈ s.ports d, p.range = "" ∨
        Header.Closed (· == .opening .square) (· == .closing .square) 0
          (Lexing.ofSource p.range).tokens := by
  intro h
  have hresult : (ofSource "module m(input [ task ] endtask 3:0 ] a); endmodule").result =
      .ok ⟨"m", [], [⟨"a", "[ task ] endtask 3:0 ]"⟩], [], []⟩ := by
    rw [ofSource, ofSource?_eq_ofLexing?]
    cbv
  rcases h _ _ (by decide) hresult .input _ (List.mem_singleton.2 rfl) with hempty | hclosed
  · exact absurd hempty (by decide)
  · exact absurd hclosed.whole (by cbv)

end Extraction

end VerilogScaffold
