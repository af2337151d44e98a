import VerilogScaffold.Diagnostic.Sink
import VerilogScaffold.Proofs.Legibility
import VerilogScaffold.Proofs.Safety

/-!
# When extraction fails, and what it says then

Extraction fails for three reasons, and each is a shape of the tokens that stripping keeps: no
`module`, a `module` that no `endmodule` follows, and a `module` that no name follows.
`ExtractError.Describes` says these shapes, and `Outline.ofTokens_eq_error_iff` that an error is
given exactly where it describes the tokens. Lexical errors have no say in it.

What is reported falls into three parts, told apart by their codes: lexical errors and unclosed
blocks, then either the one diagnostic of a failure or the warnings about a module.
`Extraction.failure_agrees` puts the result, the diagnostics and the count of errors together.
-/

namespace VerilogScaffold

variable {Place : Type}

/-! ## The shape of a failure -/

open Outline in
/-- Whether tokens are as an error says. -/
def ExtractError.Describes (ts : Tokens Place) : ExtractError Place → Prop
  | .noModule => NoOpener ts
  | .missingEndmodule opener => ∃ before after, ts = before ++ opener :: after ∧ NoOpener before ∧
      opener.kind = .keyword .moduleOpen ∧ NoCloser after
  | .missingName found => ∃ before opener after, ts = before ++ opener :: found :: after ∧
      NoOpener before ∧ opener.kind = .keyword .moduleOpen ∧ ¬ NoCloser (found :: after) ∧
      found.kind.isIdentifier = false

namespace Outline

theorem describes_of_ofTokens {ts : Tokens Place} {e : ExtractError Place}
    (h : ofTokens ts = .error e) :
    e.Describes ts := by
  rcases shapes ts with hnone | ⟨before, opener, body, rfl, hbefore, hopener, hbody⟩ |
    ⟨before, opener, body, closer, rest, rfl, hbefore, hopener, hbody, hcloser⟩
  · rw [ofTokens_of_noOpener hnone] at h
    obtain rfl := Except.error.inj h
    exact hnone
  · rw [ofTokens_unclosed hbefore hopener hbody] at h
    obtain rfl := Except.error.inj h
    exact ⟨before, body, rfl, hbefore, hopener, hbody⟩
  · rw [ofTokens_module hbefore hopener hbody hcloser] at h
    have hcloses : ¬ NoCloser (body ++ closer :: rest) := by simp [hcloser]
    rcases body with _ | ⟨name, body⟩
    · obtain rfl := Except.error.inj h
      exact ⟨before, opener, rest, rfl, hbefore, hopener, hcloses, by rw [hcloser]; rfl⟩
    · rw [ofBody] at h
      split at h
      · cases h
      · obtain rfl := Except.error.inj h
        exact ⟨before, opener, body ++ closer :: rest, rfl, hbefore, hopener, hcloses,
          Bool.eq_false_of_not_eq_true ‹_›⟩

/-- The answer on a module that no name follows, whatever its body ends with. -/
theorem ofTokens_unnamed {before after : Tokens Place} {opener found : Lexeme Place}
    (hbefore : NoOpener before) (hopener : opener.kind = .keyword .moduleOpen)
    (hcloses : ¬ NoCloser (found :: after)) (hfound : found.kind.isIdentifier = false) :
    ofTokens (before ++ opener :: found :: after) = .error (.missingName found) := by
  rcases exists_first (.keyword .moduleClose) (found :: after) with
    h | ⟨body, closer, rest, hsplit, hcloser, hbody⟩
  · exact absurd h hcloses
  · rw [hsplit, ofTokens_module hbefore hopener hbody hcloser]
    rcases body with _ | ⟨name, body⟩
    · obtain ⟨rfl, -⟩ := List.cons.inj hsplit
      rfl
    · obtain ⟨rfl, -⟩ := List.cons.inj hsplit
      rw [ofBody, if_neg (by simp [hfound])]

/-- **An error is given exactly where it describes the tokens.** -/
theorem ofTokens_eq_error_iff (ts : Tokens Place) (e : ExtractError Place) :
    ofTokens ts = .error e ↔ e.Describes ts := by
  refine ⟨describes_of_ofTokens, fun h => ?_⟩
  cases e with
  | noModule => exact ofTokens_of_noOpener h
  | missingEndmodule opener =>
    obtain ⟨before, after, rfl, hbefore, hopener, hafter⟩ := h
    exact ofTokens_unclosed hbefore hopener hafter
  | missingName found =>
    obtain ⟨before, opener, after, rfl, hbefore, hopener, hcloses, hfound⟩ := h
    exact ofTokens_unnamed hbefore hopener hcloses hfound

/-- Tokens have an outline exactly where no error describes them. -/
theorem exists_ofTokens_eq_ok_iff (ts : Tokens Place) :
    (∃ o, ofTokens ts = .ok o) ↔ ∀ e : ExtractError Place, ¬ e.Describes ts := by
  simp only [← ofTokens_eq_error_iff]
  rcases ofTokens ts with e | o <;> simp

end Outline

/-! ## The codes of each part of a report -/

/-- The code of the diagnostic that goes with an error. -/
def ExtractError.code : ExtractError Place → DiagnosticCode
  | .noModule => ⟨.error, 201⟩
  | .missingEndmodule _ => ⟨.error, 202⟩
  | .missingName _ => ⟨.error, 203⟩

/-- Whether a code is that of a failure: `E200` to `E299`. -/
def DiagnosticCode.isFailure (c : DiagnosticCode) : Bool :=
  c.category == .error && decide (200 ≤ c.number) && decide (c.number < 300)

/-- The codes of the diagnostics that come before the reading of a module. -/
def earlyCodes : List DiagnosticCode :=
  [⟨.error, 101⟩, ⟨.error, 102⟩, ⟨.error, 103⟩, ⟨.warning, 304⟩]

/-- The codes of the diagnostics about a module. -/
def moduleCodes : List DiagnosticCode :=
  [⟨.warning, 301⟩, ⟨.warning, 302⟩, ⟨.warning, 303⟩, ⟨.warning, 305⟩]

/-- No code stands in two parts of a report. -/
theorem not_isFailure_of_mem_codes :
    (∀ c ∈ earlyCodes, c.isFailure = false ∧ c ∉ moduleCodes) ∧ ∀ c ∈ moduleCodes,
    c.isFailure = false := by
  decide

/-- The diagnostic of a failure is an error with the error's code, text and place. -/
theorem ExtractError.diagnostic_eq (e : ExtractError Span) :
    e.diagnostic.severity = .error ∧ e.diagnostic.code = e.code ∧ e.diagnostic.message = e.message ∧
      e.diagnostic.span = e.span?.getD .dummy := by
  cases e <;> exact ⟨rfl, rfl, rfl, rfl⟩

theorem ExtractError.isFailure_code (e : ExtractError Place) :
    e.code.isFailure = true ∧ e.code ∉ moduleCodes := by
  cases e <;> exact ⟨rfl, by simp [code, moduleCodes]⟩

theorem remarkCodes_subset : remarkCodes ⊆ moduleCodes := by decide

namespace Outline

variable {source : String} {o : Outline Span} {ds : List Diagnostic} {d : Diagnostic}

theorem isWarning_of_nameDiagnostics? (h : o.nameDiagnostics? source = some ds) (hd : d ∈ ds) :
    d.severity = .warning ∧ d.code ∈ moduleCodes := by
  obtain ⟨onName, rfl, honName⟩ := exists_onName h
  obtain ⟨hseverity, hcode, -⟩ := honName d (Option.mem_toList.1 hd)
  rw [hcode]
  exact ⟨hseverity, by decide⟩

theorem isWarning_of_remarkDiagnostics? (h : o.remarkDiagnostics? source = some ds) (hd : d ∈ ds) :
    d.severity = .warning ∧ d.code ∈ moduleCodes := by
  obtain ⟨r, -, hr⟩ := exists_remark h hd
  obtain ⟨hseverity, hcode, -⟩ := Remark.isWarning hr
  exact ⟨hseverity, remarkCodes_subset hcode⟩

end Outline

/-! ## Counting errors -/

/-- A sink counts the errors among the diagnostics it is given. -/
theorem Sink.errorCount_foldl_emit (s : Sink) (ds : List Diagnostic) :
    (ds.foldl emit s).errorCount = s.errorCount + VerilogScaffold.errorCount ds := by
  induction ds generalizing s with
  | nil => rfl
  | cons d ds ih =>
    rw [List.foldl_cons, ih, errorCount_emit, VerilogScaffold.errorCount,
      VerilogScaffold.errorCount, List.countP_cons]
    omega

theorem errorCount_append (ds ds' : List Diagnostic) :
    errorCount (ds ++ ds') = errorCount ds + errorCount ds' :=
  List.countP_append

theorem errorCount_of_errors {ds : List Diagnostic} (h : ∀ d ∈ ds, d.severity = .error) :
    errorCount ds = ds.length :=
  List.countP_eq_length.2 fun d hd => by rw [h d hd]; rfl

theorem errorCount_of_warnings {ds : List Diagnostic} (h : ∀ d ∈ ds, d.severity = .warning) :
    errorCount ds = 0 :=
  List.countP_eq_zero.2 fun d hd => by rw [h d hd]; exact Bool.false_ne_true

namespace Extraction

variable {source : String}

theorem mem_earlyCodes {d : Diagnostic} (hd : d ∈ earlyDiagnostics source) :
    d.code ∈ earlyCodes := by
  rcases List.mem_append.1 hd with hd | hd
  · exact List.mem_append_left [⟨.warning, 304⟩] (Lexing.isError_of_mem hd).2.1
  · obtain ⟨u, -, rfl⟩ := List.mem_map.1 hd
    exact (by decide : (⟨.warning, 304⟩ : DiagnosticCode) ∈ earlyCodes)

/-- The errors among the early diagnostics are the lexical ones. -/
theorem errorCount_earlyDiagnostics :
    errorCount (earlyDiagnostics source) = (Lexing.ofSource source).diagnostics.length := by
  have hlexical : errorCount (Lexing.ofSource source).diagnostics =
      (Lexing.ofSource source).diagnostics.length :=
    errorCount_of_errors fun d hd => (Lexing.isError_of_mem hd).1
  have hblocks : errorCount (Stripped.ofTokens (Lexing.ofSource source).tokens).diagnostics = 0 :=
    errorCount_of_warnings fun d hd => by
      obtain ⟨u, -, rfl⟩ := List.mem_map.1 hd
      rfl
  rw [earlyDiagnostics, errorCount_append, hlexical, hblocks, Nat.add_zero]

/-- The tokens of a source without its subprogram blocks. -/
def keptTokens (source : String) : List Token :=
  (Stripped.ofTokens (Lexing.ofSource source).tokens).tokens

/-- A report is the early diagnostics, and then the diagnostic of the failure or warnings about the
module. -/
theorem report_cases (ha : Addressable source) :
    (∃ e, Outline.ofTokens (keptTokens source) = .error e ∧
      ofSource source = ⟨.error e, earlyDiagnostics source ++ [e.diagnostic]⟩) ∨
    ∃ o s late, Outline.ofTokens (keptTokens source) = .ok o ∧
      ofSource source = ⟨.ok s, earlyDiagnostics source ++ late⟩ ∧
      ∀ d ∈ late, d.severity = .warning ∧ d.code ∈ moduleCodes := by
  rw [keptTokens, Outline.ofTokens_ofSource]
  rcases exists_parts (ofSource?_eq ha) with ⟨e, ho, hx⟩ |
    ⟨o, s, onName, onRest, ho, -, honName, honRest, hx⟩
  · rw [ho]
    exact .inl ⟨_, rfl, hx⟩
  · rw [ho]
    refine .inr ⟨_, s, onName ++ onRest, rfl, ?_, fun d hd => ?_⟩
    · rw [hx, List.append_assoc]
    · rcases List.mem_append.1 hd with hd | hd
      · exact Outline.isWarning_of_nameDiagnostics? honName hd
      · exact Outline.isWarning_of_remarkDiagnostics? honRest hd

/-- **Failure and its diagnostic agree.** The result is an error exactly where that error describes
the kept tokens, and a signature where none does. A failure is reported once, behind all else, by a
diagnostic with the code, the text and the place of the error, and nothing is said about a module.
Where there is no failure none is reported. The errors that a sink counts are the lexical ones, and
one more for a failure. -/
theorem failure_agrees (ha : Addressable source) :
    (∀ e, (ofSource source).result = .error e ↔ e.Describes (keptTokens source)) ∧
      ((∃ s, (ofSource source).result = .ok s) ↔
        ∀ e : ExtractError Span, ¬ e.Describes (keptTokens source)) ∧
      (∀ e, (ofSource source).result = .error e →
        (ofSource source).diagnostics.getLast? = some e.diagnostic ∧
          (ofSource source).diagnostics.filter (·.code.isFailure) = [e.diagnostic] ∧
          e.diagnostic.code = e.code ∧ e.diagnostic.message = e.message ∧
          e.diagnostic.span = e.span?.getD .dummy ∧
          ∀ d ∈ (ofSource source).diagnostics, d.code ∉ moduleCodes) ∧
      (∀ s, (ofSource source).result = .ok s →
        ∀ d ∈ (ofSource source).diagnostics, d.code.isFailure = false) ∧
      ((ofSource source).diagnostics.foldl Sink.emit Sink.empty).errorCount =
        (Lexing.ofSource source).diagnostics.length +
          match (ofSource source).result with
          | .error _ => 1
          | .ok _ => 0 := by
  have hearly : ∀ d ∈ earlyDiagnostics source, d.code.isFailure = false ∧ d.code ∉ moduleCodes :=
    fun d hd => not_isFailure_of_mem_codes.1 _ (mem_earlyCodes hd)
  rw [← Outline.exists_ofTokens_eq_ok_iff]
  simp only [← Outline.ofTokens_eq_error_iff, Sink.errorCount_foldl_emit]
  rcases report_cases ha with ⟨e, ho, hx⟩ | ⟨o, s, late, ho, hx, hlate⟩
  · rw [ho, hx]
    obtain ⟨hseverity, hcode, hmessage, hspan⟩ := e.diagnostic_eq
    refine ⟨fun e' => by simp, by simp, ?_, by simp, ?_⟩
    · rintro _ ⟨⟩
      refine ⟨List.getLast?_concat, ?_, hcode, hmessage, hspan, ?_⟩
      · rw [List.filter_append, List.filter_eq_nil_iff.2 fun d hd => by simp [(hearly d hd).1]]
        simp [hcode, e.isFailure_code.1]
      · intro d hd
        rcases List.mem_append.1 hd with hd | hd
        · exact (hearly d hd).2
        · obtain rfl := List.mem_singleton.1 hd
          rw [hcode]
          exact e.isFailure_code.2
    · have hone : errorCount [e.diagnostic] = 1 := errorCount_of_errors (by simpa using hseverity)
      rw [errorCount_append, errorCount_earlyDiagnostics, hone]
      exact Nat.zero_add _
  · rw [ho, hx]
    refine ⟨fun e' => by simp, by simp, by simp, ?_, ?_⟩
    · intro _ _ d hd
      rcases List.mem_append.1 hd with hd | hd
      · exact (hearly d hd).1
      · exact not_isFailure_of_mem_codes.2 _ (hlate d hd).2
    · rw [errorCount_append, errorCount_earlyDiagnostics,
        errorCount_of_warnings fun d hd => (hlate d hd).1]
      exact Nat.zero_add _

/-- The tokens of a module that is never closed, behind a character that is no token. -/
theorem keptTokens_unclosed : keptTokens "é module top;" =
    [⟨.error, ⟨0, 2⟩⟩] ++ ⟨.keyword .moduleOpen, ⟨3, 9⟩⟩ ::
      [⟨.identifier, ⟨10, 13⟩⟩, ⟨.semicolon, ⟨13, 14⟩⟩, ⟨.eof, ⟨14, 14⟩⟩] := by
  cbv

/-- Both the character and the failure are reported, the failure last. -/
theorem failure_agrees_unclosed :
    Addressable "é module top;" ∧
      (ofSource "é module top;").result =
        .error (.missingEndmodule ⟨.keyword .moduleOpen, ⟨3, 9⟩⟩) ∧
      ((ofSource "é module top;").diagnostics.foldl Sink.emit Sink.empty).errorCount = 2 := by
  have ha : Addressable "é module top;" := by decide
  have hresult : (ofSource "é module top;").result =
      .error (.missingEndmodule ⟨.keyword .moduleOpen, ⟨3, 9⟩⟩) :=
    ((failure_agrees ha).1 _).2
      ⟨_, _, keptTokens_unclosed, by simp [Outline.NoOpener], rfl, by simp [Outline.NoCloser]⟩
  refine ⟨ha, hresult, ?_⟩
  have hcount := (failure_agrees ha).2.2.2.2
  rw [hresult] at hcount
  exact hcount.trans (by cbv)

end Extraction

end VerilogScaffold
