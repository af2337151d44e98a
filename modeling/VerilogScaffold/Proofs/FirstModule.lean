import VerilogScaffold.Signature.Outline

/-!
# Finding the first module

`Outline.ofTokens` looks for the first `module` and the first `endmodule` after it. Tokens fall into
one of three shapes: without a `module`, with a `module` that no `endmodule` follows, and with both.
The lemmas of this module say what the answer is on each shape, so that later proofs split a token
list once and never open the search again.
-/

namespace VerilogScaffold

variable {Place : Type}

namespace Outline

/-! ## One step through a body -/

theorem readBody_parameter {t : Lexeme Place} (ht : t.kind = .keyword .parameter)
    (ts : Tokens Place) :
    readBody (t :: ts) = (parameterClause t ts).1 ++ readBody (parameterClause t ts).2 := by
  rw [readBody, ht]

theorem readBody_direction {t : Lexeme Place} {d : Direction}
    (ht : t.kind = .keyword (.direction d)) (ts : Tokens Place) :
    readBody (t :: ts) = (portClause d t ts).1 ++ readBody (portClause d t ts).2 := by
  rw [readBody, ht]

/-- A token that starts no clause is stepped over. -/
theorem readBody_other {t : Lexeme Place} (hparameter : t.kind ≠ .keyword .parameter)
    (hdirection : ∀ d, t.kind ≠ .keyword (.direction d)) (ts : Tokens Place) :
    readBody (t :: ts) = readBody ts := by
  rw [readBody]
  split
  · exact absurd ‹_› hparameter
  · exact absurd ‹_› (hdirection _)
  · rfl

/-! ## The search for the ends of a module -/

/-- Tokens among which no module starts. -/
def NoOpener (ts : Tokens Place) : Prop := ∀ t ∈ ts, t.kind ≠ .keyword .moduleOpen

/-- Tokens among which no module ends. -/
def NoCloser (ts : Tokens Place) : Prop := ∀ t ∈ ts, t.kind ≠ .keyword .moduleClose

@[simp] theorem noCloser_nil : NoCloser ([] : Tokens Place) := by simp [NoCloser]

@[simp] theorem noCloser_cons {t : Lexeme Place} {ts : Tokens Place} :
    NoCloser (t :: ts) ↔ t.kind ≠ .keyword .moduleClose ∧ NoCloser ts :=
  List.forall_mem_cons

@[simp] theorem noCloser_append {ts us : Tokens Place} :
    NoCloser (ts ++ us) ↔ NoCloser ts ∧ NoCloser us :=
  List.forall_mem_append

/-- What the tokens between `module` and `endmodule` amount to: a name and what follows it. -/
def ofBody (closer : Lexeme Place) : Tokens Place → Except (ExtractError Place) (Outline Place)
  | [] => .error (.missingName closer)
  | name :: body =>
    if name.kind.isIdentifier then .ok ⟨name, readBody body⟩ else .error (.missingName name)

/-- The tokens of a body have an outline if they start with a name. -/
theorem ofBody_eq_ok_iff {closer : Lexeme Place} {body : Tokens Place} {o : Outline Place} :
    ofBody closer body = .ok o ↔
      ∃ rest, body = o.name :: rest ∧ o.name.kind.isIdentifier = true ∧
        o.findings = readBody rest := by
  constructor
  · intro h
    rcases body with _ | ⟨name, rest⟩
    · cases h
    · rw [ofBody] at h
      split at h
      · rename_i hname
        obtain rfl := Except.ok.inj h
        exact ⟨rest, rfl, hname, rfl⟩
      · cases h
  · obtain ⟨name, findings⟩ := o
    rintro ⟨rest, rfl, hname, rfl⟩
    rw [ofBody, if_pos hname]

theorem ofTokens_of_noOpener {ts : Tokens Place} (h : NoOpener ts) :
    ofTokens ts = .error .noModule := by
  induction ts with
  | nil => rfl
  | cons t ts ih =>
    rw [ofTokens, if_neg (h t (List.mem_cons_self ..))]
    exact ih fun u hu => h u (List.mem_cons_of_mem _ hu)

theorem ofTokens_append {before : Tokens Place} (h : NoOpener before) (ts : Tokens Place) :
    ofTokens (before ++ ts) = ofTokens ts := by
  induction before with
  | nil => rfl
  | cons t before ih =>
    rw [List.cons_append, ofTokens, if_neg (h t (List.mem_cons_self ..))]
    exact ih fun u hu => h u (List.mem_cons_of_mem _ hu)

/-- The test by which the search passes over the tokens of a body. -/
theorem NoCloser.passed {ts : Tokens Place} (h : NoCloser ts) :
    ∀ t ∈ ts, (!(t.kind == .keyword .moduleClose)) = true := by
  simpa [NoCloser] using h

theorem ofModule_of_noCloser (opener : Lexeme Place) {ts : Tokens Place} (h : NoCloser ts) :
    ofModule opener ts = .error (.missingEndmodule opener) := by
  have hdrop : ts.dropWhile (fun t => !(t.kind == .keyword .moduleClose)) = [] := by
    rw [← List.append_nil ts, List.dropWhile_append_of_pos h.passed]
    rfl
  simp [ofModule, hdrop]

theorem ofModule_append (opener : Lexeme Place) {body : Tokens Place} (h : NoCloser body)
    {closer : Lexeme Place} (hcloser : closer.kind = .keyword .moduleClose) (rest : Tokens Place) :
    ofModule opener (body ++ closer :: rest) = ofBody closer body := by
  have htake : (body ++ closer :: rest).takeWhile
      (fun t => !(t.kind == .keyword .moduleClose)) = body := by
    rw [List.takeWhile_append_of_pos h.passed]
    simp [hcloser]
  have hdrop : (body ++ closer :: rest).dropWhile
      (fun t => !(t.kind == .keyword .moduleClose)) = closer :: rest := by
    rw [List.dropWhile_append_of_pos h.passed]
    simp [hcloser]
  simp only [ofModule, htake, hdrop]
  cases body <;> rfl

/-! ## The three shapes of a token list -/

/-- The answer on tokens that hold a whole module. -/
theorem ofTokens_module {before body rest : Tokens Place} {opener closer : Lexeme Place}
    (hbefore : NoOpener before) (hopener : opener.kind = .keyword .moduleOpen)
    (hbody : NoCloser body) (hcloser : closer.kind = .keyword .moduleClose) :
    ofTokens (before ++ opener :: (body ++ closer :: rest)) = ofBody closer body := by
  rw [ofTokens_append hbefore, ofTokens, if_pos hopener, ofModule_append opener hbody hcloser]

/-- The answer on tokens whose first module is never closed. -/
theorem ofTokens_unclosed {before body : Tokens Place} {opener : Lexeme Place}
    (hbefore : NoOpener before) (hopener : opener.kind = .keyword .moduleOpen)
    (hbody : NoCloser body) :
    ofTokens (before ++ opener :: body) = .error (.missingEndmodule opener) := by
  rw [ofTokens_append hbefore, ofTokens, if_pos hopener, ofModule_of_noCloser opener hbody]

/-- Tokens up to the first of a kind, if there is one. -/
theorem exists_first (kind : TokenKind) (ts : Tokens Place) :
    (∀ t ∈ ts, t.kind ≠ kind) ∨ ∃ before t after, ts = before ++ t :: after ∧ t.kind = kind ∧
      ∀ u ∈ before, u.kind ≠ kind := by
  induction ts with
  | nil => exact .inl (by simp)
  | cons t ts ih =>
    by_cases ht : t.kind = kind
    · exact .inr ⟨[], t, ts, rfl, ht, by simp⟩
    · rcases ih with h | ⟨before, u, after, rfl, hu, hbefore⟩
      · exact .inl (by simpa [ht] using h)
      · exact .inr ⟨t :: before, u, after, rfl, hu, by simpa [ht] using hbefore⟩

/-- Every token list has one of three shapes. -/
theorem shapes (ts : Tokens Place) :
    NoOpener ts ∨
    (∃ before opener body, ts = before ++ opener :: body ∧ NoOpener before ∧
      opener.kind = .keyword .moduleOpen ∧ NoCloser body) ∨
    ∃ before opener body closer rest, ts = before ++ opener :: (body ++ closer :: rest) ∧
      NoOpener before ∧ opener.kind = .keyword .moduleOpen ∧ NoCloser body ∧
      closer.kind = .keyword .moduleClose := by
  rcases exists_first (.keyword .moduleOpen) ts with h |
    ⟨before, opener, after, rfl, hopener, hbefore⟩
  · exact .inl h
  · rcases exists_first (.keyword .moduleClose) after with h |
      ⟨body, closer, rest, rfl, hcloser, hbody⟩
    · exact .inr (.inl ⟨before, opener, after, rfl, hbefore, hopener, h⟩)
    · exact .inr (.inr ⟨before, opener, body, closer, rest, rfl, hbefore, hopener, hbody, hcloser⟩)

/-- Tokens with an outline hold a whole module. -/
theorem exists_module_of_ok {ts : Tokens Place} {o : Outline Place}
    (h : ofTokens ts = .ok o) :
    ∃ before opener body closer rest, ts = before ++ opener :: (body ++ closer :: rest) ∧
      NoOpener before ∧ opener.kind = .keyword .moduleOpen ∧ NoCloser body ∧
      closer.kind = .keyword .moduleClose ∧ ofBody closer body = .ok o := by
  rcases shapes ts with hnone | ⟨before, opener, body, rfl, hbefore, hopener, hbody⟩ |
    ⟨before, opener, body, closer, rest, rfl, hbefore, hopener, hbody, hcloser⟩
  · rw [ofTokens_of_noOpener hnone] at h
    cases h
  · rw [ofTokens_unclosed hbefore hopener hbody] at h
    cases h
  · rw [ofTokens_module hbefore hopener hbody hcloser] at h
    exact ⟨before, opener, body, closer, rest, rfl, hbefore, hopener, hbody, hcloser, h⟩

end Outline

end VerilogScaffold
