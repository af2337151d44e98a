import VerilogScaffold.Proofs.WellFormed

/-!
# Where the scan of a body comes

The scan of a module's body goes from clause to clause, and steps over what starts none.
`Outline.Reaches` is this walk: which tokens are still to be read, and what was found before. What
is found on the way is in the outline (`Reaches.readBody_eq`), and so in the signature
(`Extraction.ports_of_reaches`), in front of all that is found later.
-/

namespace VerilogScaffold

/-- The keywords that start a clause. -/
def TokenKind.opensClause : TokenKind → Bool
  | .keyword .parameter | .keyword (.direction _) => true
  | _ => false

namespace Outline

variable {P : Type} {body rest ts : List (Lexeme P)}

/-- The scan of a body comes to some tokens, having found something before. -/
inductive Reaches (body : Tokens P) : List (Finding P) → Tokens P → Prop
  | start : Reaches body [] body
  | other {found : List (Finding P)} {t : Lexeme P} {ts : Tokens P}
      (h : Reaches body found (t :: ts)) (ht : t.kind.opensClause = false) : Reaches body found ts
  | parameter {found : List (Finding P)} {t : Lexeme P} {ts : Tokens P}
      (h : Reaches body found (t :: ts)) (ht : t.kind = .keyword .parameter) :
      Reaches body (found ++ (parameterClause t ts).1) (parameterClause t ts).2
  | port {found : List (Finding P)} {t : Lexeme P} {ts : Tokens P} {d : Direction}
      (h : Reaches body found (t :: ts)) (ht : t.kind = .keyword (.direction d)) :
      Reaches body (found ++ (portClause d t ts).1) (portClause d t ts).2

/-- A token that opens no clause is stepped over. -/
theorem readBody_of_not_opensClause {t : Lexeme P} (ht : t.kind.opensClause = false)
    (ts : Tokens P) :
    readBody (t :: ts) = readBody ts := by
  refine readBody_other ?_ ?_ ts
  · intro hkind
    rw [hkind] at ht
    cases ht
  · intro d hkind
    rw [hkind] at ht
    cases ht

/-- What a body holds is what the scan found, and then what it will find. -/
theorem Reaches.readBody_eq {found : List (Finding P)} (h : Reaches body found rest) :
    readBody body = found ++ readBody rest := by
  induction h with
  | start => rfl
  | other h ht ih => rw [ih, readBody_of_not_opensClause ht]
  | parameter h ht ih => rw [ih, readBody_parameter ht, List.append_assoc]
  | port h ht ih => rw [ih, readBody_direction ht, List.append_assoc]

/-- The scan goes on from where it has come to. -/
theorem Reaches.trans {found found' : List (Finding P)} (h : Reaches body found ts)
    (h' : Reaches ts found' rest) : Reaches body (found ++ found') rest := by
  induction h' with
  | start => rwa [List.append_nil]
  | other _ ht ih => exact ih.other ht
  | parameter _ ht ih =>
    rw [← List.append_assoc]
    exact ih.parameter ht
  | port _ ht ih =>
    rw [← List.append_assoc]
    exact ih.port ht

/-- Tokens that open no clause are stepped over. -/
theorem reaches_of_not_opensClause {passed : Tokens P}
    (h : ∀ t ∈ passed, t.kind.opensClause = false)
    (rest : Tokens P) : Reaches (passed ++ rest) [] rest := by
  induction passed with
  | nil => exact .start
  | cons t passed ih =>
    have hstep : Reaches (t :: passed ++ rest) [] (passed ++ rest) :=
      Reaches.start.other (h t (List.mem_cons_self ..))
    exact hstep.trans (ih fun u hu => h u (List.mem_cons_of_mem _ hu))

/-! ## Bodies -/

/-- Whether the first module among tokens has a name and the given body. -/
def HasBody (ts body : Tokens P) : Prop :=
  ∃ before opener name closer after, ts = before ++ opener :: (name :: body ++ closer :: after) ∧
    NoOpener before ∧ opener.kind = .keyword .moduleOpen ∧ NoCloser (name :: body) ∧
    closer.kind = .keyword .moduleClose

/-- What an outline holds is what its body holds. -/
theorem HasBody.findings_eq (h : HasBody ts body) {o : Outline P} (ho : ofTokens ts = .ok o) :
    o.findings = readBody body := by
  obtain ⟨before, opener, name, closer, after, rfl, hbefore, hopener, hbody, hcloser⟩ := h
  rw [ofTokens_module hbefore hopener hbody hcloser] at ho
  obtain ⟨rest, hrest, -, hfindings⟩ := ofBody_eq_ok_iff.1 ho
  rw [hfindings, (List.cons.inj hrest).2]

end Outline

namespace Extraction

open Outline

variable {source : String} {s : Signature} {body rest : Tokens Span} {found : List (Finding Span)}

/-- What some findings declare of one direction. -/
def portsOf? (source : String) (d : Direction) (found : List (Finding Span)) : Option (List Port) :=
  (found.filterMap (Finding.port? d)).mapM (Signature.portAt? source)

theorem portsOf?_append (d : Direction) (found more : List (Finding Span)) :
    portsOf? source d (found ++ more) =
      (portsOf? source d found).bind fun ps => (portsOf? source d more).map (ps ++ ·) := by
  rw [portsOf?, List.filterMap_append, List.mapM_append, ← portsOf?, ← portsOf?]
  rcases portsOf? source d found with _ | ps
  · rfl
  · rcases portsOf? source d more with _ | qs <;> rfl

/-- The ports of a signature are those found before the scan came to some tokens, and then those
found from there on. -/
theorem ports_of_reaches (ha : Addressable source) (hs : (ofSource source).result = .ok s)
    (hbody : HasBody (keptTokens source) body) (h : Reaches body found rest) (d : Direction) :
    ∃ earlier later, portsOf? source d found = some earlier ∧
      portsOf? source d (readBody rest) = some later ∧ s.ports d = earlier ++ later := by
  obtain ⟨o, ho, -, hports⟩ := exists_outline_of_result ha hs
  have hd : portsOf? source d (found ++ readBody rest) = some (s.ports d) := by
    rw [← h.readBody_eq, ← hbody.findings_eq ho]
    exact hports d
  rw [portsOf?_append] at hd
  obtain ⟨earlier, hearlier, hd⟩ := Option.bind_eq_some_iff.1 hd
  obtain ⟨later, hlater, hd⟩ := Option.map_eq_some_iff.1 hd
  exact ⟨earlier, later, hearlier, hlater, hd.symm⟩

end Extraction

end VerilogScaffold
