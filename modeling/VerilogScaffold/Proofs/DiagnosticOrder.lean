import VerilogScaffold.Proofs.Failure
import VerilogScaffold.Proofs.FindingOrder

/-!
# Diagnostics come in source order

A report has three phases: what is wrong with the text, the blocks that are left open, and what is
said about the module. Within a phase the diagnostics start one behind the other, so no two of them
start at one place (`Extraction.phases_in_order`).

Each diagnostic of a phase is about an event of the source, so it is enough that a phase goes
through the events in order (`inSourceOrder_of_sublist`). For the last phase this is the order in
which the scan finds things, which is shown on tokens alone (`Outline.name_cons_selected_sublist`).
-/

namespace VerilogScaffold

variable {source : String} {ds : List Diagnostic}

/-! ## Phases -/

/-- The codes of failures. -/
def failureCodes : List DiagnosticCode := [⟨.error, 201⟩, ⟨.error, 202⟩, ⟨.error, 203⟩]

/-- Diagnostics of which each starts behind the one before. -/
def InSourceOrder (ds : List Diagnostic) :
    Prop := ds.Pairwise fun d d' => d.span.start < d'.span.start

/-- What is said about a module: why it cannot be read, or first what is remarkable about its name
and then what is remarked on in its body. -/
def ConcernsModule (ds : List Diagnostic) : Except (ExtractError Span) Signature → Prop
  | .error e => ds = [e.diagnostic] ∧ e.diagnostic.code ∈ failureCodes
  | .ok _ => ∃ onName onBody, ds = Option.toList onName ++ onBody ∧
      (∀ d ∈ onName, d.code = ⟨.warning, 305⟩) ∧
      ∀ d ∈ onBody, d.code ∈ remarkCodes

/-- What a sink that was empty holds after an extraction, in three phases, each in source order. -/
structure Extraction.InPhases (x : Extraction)
    (lexical blocks onModule : List Diagnostic) : Prop where
  held_eq : (x.diagnostics.foldl Sink.emit Sink.empty).held = lexical ++ blocks ++ onModule
  lexical_codes : ∀ d ∈ lexical, d.code ∈ lexicalCodes
  blocks_codes : ∀ d ∈ blocks, d.code = ⟨.warning, 304⟩
  concernsModule : ConcernsModule onModule x.result
  lexical_order : InSourceOrder lexical
  blocks_order : InSourceOrder blocks
  onModule_order : InSourceOrder onModule

/-! ## The order of events -/

/-- The spans of the events of a source, in order. -/
def eventSpans (source : String) :
    List Span := (eventsFrom 0 source.toList).map fun e => e.place.span

theorem pairwise_eventSpans (ha : Addressable source) :
    (eventSpans source).Pairwise fun a b => a.start < b.start := by
  refine List.pairwise_map.2 ((Segment.eventsFrom_pairwise 0 _).imp_of_mem ?_)
  intro a b hmem hmem' hle
  obtain ⟨hlies, hlt⟩ := Event.liesOn_of_mem hmem
  have hlies' := (Event.liesOn_of_mem hmem').1
  rw [UInt32.lt_iff_toNat_lt, hlies.toNat_start ha, hlies'.toNat_start ha]
  exact Nat.lt_of_lt_of_le hlt hle

/-- Diagnostics that go through the events of a source are in its order. -/
theorem inSourceOrder_of_sublist (ha : Addressable source)
    (h : (ds.map Diagnostic.span).Sublist (eventSpans source)) : InSourceOrder ds := by
  have hspans := (pairwise_eventSpans ha).sublist h
  rw [List.pairwise_map] at hspans
  exact hspans

/-- What is read off some entries of a list, one by one, goes through the list. -/
theorem map_filterMap_sublist {A B C : Type} {f : A → Option B} {g : B → C} {k : A → C}
    (h : ∀ a b, f a = some b → g b = k a) (as : List A) :
    ((as.filterMap f).map g).Sublist (as.map k) := by
  induction as with
  | nil => exact List.Sublist.refl _
  | cons a as ih =>
    cases hfa : f a with
    | none =>
      rw [List.filterMap_cons_none hfa]
      exact ih.cons _
    | some b =>
      rw [List.filterMap_cons_some hfa, List.map_cons, List.map_cons, h a b hfa]
      exact ih.cons_cons _

/-- Tokens are events, and go through them in order. -/
theorem tokenSpans_sublist {ts : List (Lexeme Stretch)}
    (h : ts.Sublist (lexemesFrom 0 source.toList)) :
    (ts.map fun t => t.place.span).Sublist (eventSpans source) := by
  refine (h.map _).trans (map_filterMap_sublist ?_ _)
  intro e t ht
  rw [Event.place_of_lexeme? ht]

/-! ## The early phases -/

theorem Lexing.inSourceOrder (ha : Addressable source) :
    InSourceOrder (ofSource source).diagnostics := by
  apply inSourceOrder_of_sublist ha
  rw [diagnostics_ofSource]
  apply map_filterMap_sublist
  intro e d hd
  exact (SegmentKind.isError_of_diagnostic? hd).2.2

theorem Stripped.inSourceOrder (ha : Addressable source) :
    InSourceOrder (ofTokens (Lexing.ofSource source).tokens).diagnostics := by
  apply inSourceOrder_of_sublist ha
  have hspans : (ofTokens (Lexing.ofSource source).tokens).diagnostics.map Diagnostic.span =
      ((ofText source.toList).unclosed.map Prod.snd).map fun t => t.place.span := by
    rw [ofTokens_ofSource, diagnostics, unclosed_append, List.append_nil]
    simp only [Stripped.map, List.map_map]
    rfl
  rw [hspans]
  exact tokenSpans_sublist (unclosed_sublist _)

/-! ## The phase about the module -/

theorem ExtractError.mem_failureCodes {P : Type} (e : ExtractError P) : e.code ∈ failureCodes := by
  cases e <;> simp [code, failureCodes]

/-- Whether a finding is remarked on. -/
def Finding.isRemark {P : Type} : Finding P → Bool
  | .remark _ => true
  | .parameter .. | .port .. => false

namespace Outline

variable {o : Outline Stretch}

/-- The remarks of an outline are on the tokens of the findings that are remarked on. -/
theorem map_token_remarks {P : Type} (o : Outline P) :
    o.remarks.map Remark.token = selected Finding.isRemark o.findings := by
  unfold remarks selected
  induction o.findings with
  | nil => rfl
  | cons x found ih =>
    cases x with
    | parameter name value => exact ih
    | port direction name range => exact ih
    | remark r => exact congrArg (r.token :: ·) ih

theorem partsPorts_isRemark {P : Type} : PartsPorts (Finding.isRemark (P := P)) := by
  intro direction name range _
  rfl

/-- What is said about the body of a module is said of the tokens of its remarks, one by one. -/
theorem spans_of_remarkDiagnostics? (h : (o.map Stretch.span).remarkDiagnostics? source = some ds) :
    ds.map Diagnostic.span = (selected Finding.isRemark o.findings).map fun t => t.place.span := by
  rw [remarkDiagnostics?_eq] at h
  have hspans := map_eq_map_of_mapM (fun r d hd => (Remark.isWarning hd).2.2) h
  rw [hspans, remarks_map, List.map_map, ← map_token_remarks, List.map_map]
  congr 1
  funext r
  exact congrArg Lexeme.span (Remark.token_map Stretch.span r)

/-- What is said about a module is said in order: first about its name, then about its body. -/
theorem inSourceOrder (ha : Addressable source) (ho : ofText source.toList = .ok o)
    {onName onBody : List Diagnostic}
    (hname : (o.map Stretch.span).nameDiagnostics? source = some onName)
    (hbody : (o.map Stretch.span).remarkDiagnostics? source = some onBody) :
    (∀ signature, ConcernsModule (onName ++ onBody) (.ok signature)) ∧ InSourceOrder
    (onName ++ onBody) := by
  obtain ⟨onName, rfl, hnamed⟩ := exists_onName hname
  have hcodes : ∀ d ∈ onBody, d.code ∈ remarkCodes := by
    intro d hd
    obtain ⟨r, -, hr⟩ := exists_remark hbody hd
    exact (Remark.isWarning hr).2.1
  refine ⟨fun _ => ⟨onName, onBody, rfl, fun d hd => (hnamed d hd).2.1, hcodes⟩,
    inSourceOrder_of_sublist ha ?_⟩
  have htokens :=
    (name_cons_selected_sublist partsPorts_isRemark ho).trans (Stripped.tokens_sublist _)
  rw [List.map_append, spans_of_remarkDiagnostics? hbody]
  cases onName with
  | none => exact tokenSpans_sublist ((List.sublist_cons_self o.name _).trans htokens)
  | some d =>
    have hspan := tokenSpans_sublist htokens
    rw [List.map_cons] at hspan
    rw [Option.toList_some, List.map_singleton, (hnamed d rfl).2.2]
    exact hspan

end Outline

/-! ## Reports -/

namespace Extraction

/-- **Diagnostics come phase by phase, and in source order within a phase.** Extraction gives a
result on every addressable source, and a sink that was empty holds its diagnostics: the lexical
ones, those about open blocks, and those about the module. The last are the one of the failure where
extraction fails, and otherwise at most one about the name of the module and then those about its
body. -/
theorem phases_in_order (ha : Addressable source) :
    ∃ x lexical blocks onModule, ofSource? source = some x ∧
      x.InPhases lexical blocks onModule := by
  have hblocks : ∀ d ∈ (Stripped.ofTokens (Lexing.ofSource source).tokens).diagnostics,
      d.code = ⟨.warning, 304⟩ := by
    intro d hd
    obtain ⟨u, -, rfl⟩ := List.mem_map.1 hd
    rfl
  obtain ⟨x, hx⟩ := exists_ofSource? ha
  suffices hlate : ∃ late, x.diagnostics = earlyDiagnostics source ++ late ∧
      ConcernsModule late x.result ∧
      InSourceOrder late by
    obtain ⟨late, hdiagnostics, hlate, horder⟩ := hlate
    refine ⟨x, _, _, late, hx, ?_, fun d hd => (Lexing.isError_of_mem hd).2.1, hblocks, hlate,
      Lexing.inSourceOrder ha, Stripped.inSourceOrder ha, horder⟩
    rw [Sink.held_foldl_emit, hdiagnostics]
    rfl
  rcases exists_parts hx with ⟨e, -, rfl⟩ |
    ⟨o, signature, onName, onBody, ho, -, honName, honBody, rfl⟩
  · refine ⟨_, rfl, ⟨rfl, ?_⟩, List.pairwise_singleton _ _⟩
    rw [(ExtractError.diagnostic_eq _).2.1]
    exact ExtractError.mem_failureCodes _
  · obtain ⟨hmodule, horder⟩ := Outline.inSourceOrder ha ho honName honBody
    exact ⟨onName ++ onBody, List.append_assoc _ _ _, hmodule signature, horder⟩

/-- All but the failures: a character that starts no lexeme, a task that is left open, and a module
with an escaped name, a default, a clause without a port and a parameter without a value. -/
theorem phases_in_order_escaped :
    Addressable "module \\m (input a = 1, output);\nparameter p; task t; endmodule é" ∧
      ∃ x lexical blocks onModule,
        ofSource? "module \\m (input a = 1, output);\nparameter p; task t; endmodule é" = some x ∧
        x.diagnostics.map (·.code.number) = [103, 304, 305, 301, 303, 302] ∧
        x.InPhases lexical blocks onModule := by
  have ha : Addressable "module \\m (input a = 1, output);\nparameter p; task t; endmodule é" := by
    decide
  obtain ⟨x, lexical, blocks, onModule, hx, hphases⟩ := phases_in_order ha
  have hcodes : (ofSource?
      "module \\m (input a = 1, output);\nparameter p; task t; endmodule é").map
      (fun x => x.diagnostics.map (·.code.number)) = some [103, 304, 305, 301, 303, 302] := by
    rw [ofSource?_eq_ofLexing?]
    cbv
  rw [hx] at hcodes
  exact ⟨ha, x, lexical, blocks, onModule, hx, Option.some.inj hcodes, hphases⟩

end Extraction

end VerilogScaffold
