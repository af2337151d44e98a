import VerilogScaffold.Signature.Block
import VerilogScaffold.Proofs.FirstModule

/-!
# Reading does not look at places

Stripping and the reading of outlines decide by the kinds of tokens. Moving every token to another
place therefore moves what they answer, and changes nothing else: each reader commutes with
`Lexeme.map`. A property of places that holds of all tokens read then holds of all tokens answered
(`Outline.ofTokens_map` with a subtype of places), and two sources with the same kinds have outlines
that differ in places only.
-/

namespace VerilogScaffold

variable {P Q : Type} (f : P → Q)

/-! ## Moving what readers answer -/

@[simp] theorem Lexeme.kind_map (t : Lexeme P) : (t.map f).kind = t.kind := rfl

/-- Moves the ends of a run of tokens. -/
def Extent.map (e : Extent P) : Extent Q := ⟨e.first.map f, e.last.map f⟩

/-- Moves the token an error is about. -/
def ExtractError.map : ExtractError P → ExtractError Q
  | .noModule => .noModule
  | .missingEndmodule opener => .missingEndmodule (opener.map f)
  | .missingName found => .missingName (found.map f)

/-- Moves the tokens of a remark. -/
def Remark.map : Remark P → Remark Q
  | .parameterWithoutName keyword => .parameterWithoutName (keyword.map f)
  | .parameterWithoutValue name => .parameterWithoutValue (name.map f)
  | .parameterWithEmptyValue name => .parameterWithEmptyValue (name.map f)
  | .portDefault name => .portDefault (name.map f)
  | .noPorts direction keyword range =>
    .noPorts direction (keyword.map f) (range.map (Extent.map f))

/-- Moves the tokens of a finding. -/
def Finding.map : Finding P → Finding Q
  | .parameter name value => .parameter (name.map f) (value.map f)
  | .port direction name range => .port direction (name.map f) (range.map (Extent.map f))
  | .remark r => .remark (r.map f)

/-- Moves the tokens of an outline. -/
def Outline.map (o : Outline P) : Outline Q := ⟨o.name.map f, o.findings.map (Finding.map f)⟩

/-- Moves the tokens that stripping leaves, and those it reports. -/
def Stripped.map (s : Stripped P) : Stripped Q :=
  ⟨s.tokens.map (Lexeme.map f), s.unclosed.map fun u => (u.1, u.2.map f)⟩

/-- Tokens moved twice. -/
theorem Lexeme.map_map {R : Type} (g : Q → R) (t : Lexeme P) :
    (t.map f).map g = t.map (fun x => g (f x)) := rfl

theorem Finding.map_map {R : Type} (g : Q → R) (x : Finding P) :
    (x.map f).map g = x.map (fun x => g (f x)) := by
  rcases x with ⟨name, value⟩ | ⟨d, name, _ | range⟩ | r
  · rfl
  · rfl
  · rfl
  · rcases r with keyword | name | name | name | ⟨d, keyword, _ | range⟩ <;> rfl

theorem Outline.map_map {R : Type} (g : Q → R) (o : Outline P) :
    (o.map f).map g = o.map (fun x => g (f x)) := by
  simp only [Outline.map, Lexeme.map_map, List.map_map, Function.comp_def, Finding.map_map]

theorem ExtractError.map_map {R : Type} (g : Q → R) (e : ExtractError P) :
    (e.map f).map g = e.map (fun x => g (f x)) := by
  cases e <;> rfl

/-! ## Stripping -/

namespace Stripped

@[simp] theorem map_keep (t : Lexeme P) (s : Stripped P) :
    (s.keep t).map f = (s.map f).keep (t.map f) := rfl

@[simp] theorem map_report (b : Block) (t : Lexeme P) (s : Stripped P) :
    (s.report b t).map f = (s.map f).report b (t.map f) := rfl

@[simp] theorem closes_map (b : Block) (ts : List (Lexeme P)) :
    closes b (ts.map (Lexeme.map f)) = closes b ts := by
  simp [closes, Function.comp_def]

theorem ofTokensFrom_map (inside : Option Block) (ts : List (Lexeme P)) :
    ofTokensFrom inside (ts.map (Lexeme.map f)) = (ofTokensFrom inside ts).map f := by
  fun_induction ofTokensFrom inside ts with
  | case1 => rfl
  | case2 b t ts ih =>
    rw [List.map_cons, ofTokensFrom]
    exact ih
  | case3 t ts b hkind hcloses ih => simpa [ofTokensFrom, hkind, hcloses] using ih
  | case4 t ts b hkind hcloses ih => simp [ofTokensFrom, hkind, hcloses, ih]
  | case5 t ts hkind ih =>
    rw [List.map_cons, ofTokensFrom, map_keep, ih]
    split
    · exact absurd ‹_› (hkind _)
    · rfl

/-- Moved tokens are stripped like the tokens. -/
theorem ofTokens_map (ts : List (Lexeme P)) :
    ofTokens (ts.map (Lexeme.map f)) = (ofTokens ts).map f :=
  ofTokensFrom_map f none ts

end Stripped

/-! ## Reading -/

namespace Outline

@[simp] theorem isTypeName_map (word : TokenKind) (ts : Tokens P) :
    isTypeName word (ts.map (Lexeme.map f)) = isTypeName word ts := by
  cases ts <;> rfl

@[simp] theorem continuesParameters_map (ts : Tokens P) :
    continuesParameters (ts.map (Lexeme.map f)) = continuesParameters ts := by
  rcases ts with _ | ⟨a, _ | ⟨b, _ | ⟨c, ts⟩⟩⟩ <;> rfl

@[simp] theorem continuesPorts_map (ts : Tokens P) :
    continuesPorts (ts.map (Lexeme.map f)) = continuesPorts ts := by
  rcases ts with _ | ⟨a, _ | ⟨b, ts⟩⟩ <;> rfl

@[simp] theorem extent?_map (ts : Tokens P) :
    extent? (ts.map (Lexeme.map f)) = (extent? ts).map (Extent.map f) := by
  cases ts with
  | nil => rfl
  | cons t ts =>
    simp only [List.map_cons, extent?, Option.map_some, Extent.map, List.getLastD_eq_getLast?,
      List.getLast?_map]
    cases ts.getLast? <;> rfl

theorem groupEnd_map (depth : Nat) (last : Lexeme P) (ts : Tokens P) :
    groupEnd depth (last.map f) (ts.map (Lexeme.map f)) =
      ((groupEnd depth last ts).1.map f, (groupEnd depth last ts).2.map (Lexeme.map f)) := by
  fun_induction groupEnd depth last ts <;> simp_all [groupEnd]

theorem splitExpression_map (depth : Nat) (ts : Tokens P) :
    splitExpression depth (ts.map (Lexeme.map f)) =
      ((splitExpression depth ts).1.map (Lexeme.map f),
        (splitExpression depth ts).2.map (Lexeme.map f)) := by
  fun_induction splitExpression depth ts <;> simp_all [splitExpression]

theorem widen_map (range : Option (Extent P)) (first last : Lexeme P) :
    widen (range.map (Extent.map f)) (first.map f) (last.map f) =
      (widen range first last).map f := by
  cases range <;> rfl

theorem splitType_map (range : Option (Extent P)) (ts : Tokens P) :
    splitType (range.map (Extent.map f)) (ts.map (Lexeme.map f)) =
      ((splitType range ts).1.map (Extent.map f),
        (splitType range ts).2.map (Lexeme.map f)) := by
  fun_induction splitType range ts with
  | case1 => simp [splitType]
  | case2 range t ts hopen ih =>
    rw [List.map_cons, splitType, if_pos (by simpa using hopen), groupEnd_map, widen_map]
    exact ih
  | case3 range t ts hopen hword ih =>
    rw [List.map_cons, splitType, if_neg (by simpa using hopen), if_pos (by simpa using hword), ih]
  | case4 range t ts hopen hword =>
    rw [List.map_cons, splitType, if_neg (by simpa using hopen), if_neg (by simpa using hword)]

/-- A clause starts to read its type without a range. -/
theorem splitType_none_map (ts : Tokens P) :
    splitType none (ts.map (Lexeme.map f)) =
      ((splitType none ts).1.map (Extent.map f), (splitType none ts).2.map (Lexeme.map f)) :=
  splitType_map f none ts

theorem skipGroups_map (ts : Tokens P) :
    skipGroups (ts.map (Lexeme.map f)) = (skipGroups ts).map (Lexeme.map f) := by
  fun_induction skipGroups ts with
  | case1 => simp [skipGroups]
  | case2 t ts hopen ih =>
    rw [List.map_cons, skipGroups, if_pos (by simpa using hopen), groupEnd_map]
    exact ih
  | case3 t ts hopen =>
    rw [List.map_cons, skipGroups, if_neg (by simpa using hopen)]

theorem parameterFinding_map (name : Lexeme P) (value : Tokens P) :
    parameterFinding (name.map f) (value.map (Lexeme.map f)) =
      (parameterFinding name value).map f := by
  cases h : extent? value <;> simp [parameterFinding, h] <;> rfl

theorem parameterItem_map (keyword : Lexeme P) (ts : Tokens P) :
    parameterItem (keyword.map f) (ts.map (Lexeme.map f)) =
      ((parameterItem keyword ts).1.map f,
        (parameterItem keyword ts).2.1.map (Lexeme.map f), (parameterItem keyword ts).2.2) := by
  rcases ts with _ | ⟨name, _ | ⟨equals, rest⟩⟩
  · rfl
  · by_cases hname : name.kind.isIdentifier <;> simp [parameterItem, hname] <;> rfl
  · by_cases hname : name.kind.isIdentifier <;> by_cases hequals : equals.kind = .equals <;>
      simp [parameterItem, hname, hequals, splitExpression_map, parameterFinding_map] <;> rfl

theorem parameterClause_map (keyword : Lexeme P) (ts : Tokens P) :
    parameterClause (keyword.map f) (ts.map (Lexeme.map f)) =
      ((parameterClause keyword ts).1.map (Finding.map f),
        (parameterClause keyword ts).2.map (Lexeme.map f)) := by
  fun_induction parameterClause keyword ts with
  | case1 ts item hmore more ih =>
    rw [parameterClause, splitType_none_map, parameterItem_map]
    simp only [item] at hmore ih
    simp only [hmore, if_true, ← List.map_drop, ih]
    rfl
  | case2 ts item hmore =>
    rw [parameterClause, splitType_none_map, parameterItem_map]
    simp only [item] at hmore
    simp only [hmore, Bool.false_eq_true, if_false]
    rfl

theorem portTail_map (ts : Tokens P) :
    portTail (ts.map (Lexeme.map f)) = ((portTail ts).1, (portTail ts).2.map (Lexeme.map f)) := by
  simp only [portTail, skipGroups_map]
  rcases skipGroups ts with _ | ⟨t, rest⟩
  · rfl
  · by_cases hequals : t.kind = .equals <;> simp [hequals, splitExpression_map]

theorem portFindings_map (direction : Direction) (range : Option (Extent P)) (name : Lexeme P)
    (hasDefault : Bool) :
    portFindings direction (range.map (Extent.map f)) (name.map f) hasDefault =
      (portFindings direction range name hasDefault).map (Finding.map f) := by
  cases hasDefault <;> rfl

theorem portNames_map (direction : Direction) (range : Option (Extent P)) (ts : Tokens P) :
    portNames direction (range.map (Extent.map f)) (ts.map (Lexeme.map f)) =
      ((portNames direction range ts).1.map (Finding.map f),
        (portNames direction range ts).2.map (Lexeme.map f)) := by
  fun_induction portNames direction range ts with
  | case1 => simp [portNames]
  | case2 name ts hname found hmore more ih =>
    rw [List.map_cons, portNames, Lexeme.kind_map, if_pos hname, portTail_map]
    simp only [continuesPorts_map, hmore, if_true, portFindings_map, ← List.map_drop, ih]
    simp only [found, more, List.map_append]
  | case3 name ts hname found hmore =>
    rw [List.map_cons, portNames, Lexeme.kind_map, if_pos hname, portTail_map]
    simp only [continuesPorts_map, hmore, portFindings_map, Bool.false_eq_true, if_false]
    rfl
  | case4 name ts hname =>
    rw [List.map_cons, portNames, Lexeme.kind_map, if_neg hname]
    rfl

theorem portClause_map (direction : Direction) (keyword : Lexeme P) (ts : Tokens P) :
    portClause direction (keyword.map f) (ts.map (Lexeme.map f)) =
      ((portClause direction keyword ts).1.map (Finding.map f),
        (portClause direction keyword ts).2.map (Lexeme.map f)) := by
  simp only [portClause, splitType_none_map, portNames_map]
  rcases portNames direction (splitType none ts).1 (splitType none ts).2 with ⟨_ | ⟨x, found⟩, rest⟩
  · rfl
  · rfl

theorem readBody_map (ts : Tokens P) :
    readBody (ts.map (Lexeme.map f)) = (readBody ts).map (Finding.map f) := by
  fun_induction readBody ts with
  | case1 => simp [readBody]
  | case2 t ts hkind ih =>
    rw [List.map_cons, readBody_parameter (t := t.map f) hkind, parameterClause_map, ih,
      List.map_append]
  | case3 t ts d hkind ih =>
    rw [List.map_cons, readBody_direction (t := t.map f) hkind, portClause_map, ih, List.map_append]
  | case4 t ts hparameter hdirection ih =>
    rw [List.map_cons, readBody_other (t := t.map f) hparameter hdirection, ih]

theorem ofBody_map (closer : Lexeme P) (body : Tokens P) :
    ofBody (closer.map f) (body.map (Lexeme.map f)) =
      ((ofBody closer body).map (Outline.map f)).mapError (ExtractError.map f) := by
  rcases body with _ | ⟨name, body⟩
  · rfl
  · by_cases hname : name.kind.isIdentifier <;> simp [ofBody, hname, readBody_map] <;> rfl

@[simp] theorem noOpener_map {ts : Tokens P} : NoOpener (ts.map (Lexeme.map f)) ↔ NoOpener ts := by
  simp [NoOpener]

@[simp] theorem noCloser_map {ts : Tokens P} : NoCloser (ts.map (Lexeme.map f)) ↔ NoCloser ts := by
  simp [NoCloser]

/-- The outline of moved tokens is the outline moved. -/
theorem ofTokens_map (ts : Tokens P) :
    ofTokens (ts.map (Lexeme.map f)) =
      ((ofTokens ts).map (Outline.map f)).mapError (ExtractError.map f) := by
  rcases shapes ts with hnone | ⟨before, opener, body, rfl, hbefore, hopener, hbody⟩ |
    ⟨before, opener, body, closer, rest, rfl, hbefore, hopener, hbody, hcloser⟩
  · rw [ofTokens_of_noOpener hnone, ofTokens_of_noOpener ((noOpener_map f).2 hnone)]
    rfl
  · rw [ofTokens_unclosed hbefore hopener hbody, List.map_append, List.map_cons,
      ofTokens_unclosed ((noOpener_map f).2 hbefore) hopener ((noCloser_map f).2 hbody)]
    rfl
  · rw [ofTokens_module hbefore hopener hbody hcloser, List.map_append, List.map_cons,
      List.map_append, List.map_cons,
      ofTokens_module ((noOpener_map f).2 hbefore) hopener ((noCloser_map f).2 hbody) hcloser,
      ofBody_map]

end Outline

/-! ## Places answered are places read -/

/-- Whether a property holds of the places of both ends of a run. -/
def Extent.Forall (p : P → Prop) (e : Extent P) : Prop := p e.first.place ∧ p e.last.place

/-- Whether a property holds of the places of all tokens of a remark. -/
def Remark.Forall (p : P → Prop) : Remark P → Prop
  | .parameterWithoutName t | .parameterWithoutValue t | .parameterWithEmptyValue t
  | .portDefault t => p t.place
  | .noPorts _ t range => p t.place ∧ ∀ e ∈ range, e.Forall p

/-- Whether a property holds of the places of all tokens of a finding. -/
def Finding.Forall (p : P → Prop) : Finding P → Prop
  | .parameter name value => p name.place ∧ value.Forall p
  | .port _ name range => p name.place ∧ ∀ e ∈ range, e.Forall p
  | .remark r => r.Forall p

/-- Whether a property holds of the places of all tokens of an outline. -/
def Outline.Forall (p : P → Prop) (o : Outline P) : Prop :=
  p o.name.place ∧ ∀ f ∈ o.findings, f.Forall p

/-- Whether a property holds of the place of the token an error is about. -/
def ExtractError.Forall (p : P → Prop) : ExtractError P → Prop
  | .noModule => True
  | .missingEndmodule t | .missingName t => p t.place

section Forall

variable {p : P → Prop}

theorem Extent.forall_map_val (range : Option (Extent {x // p x})) :
    ∀ e ∈ range.map (Extent.map Subtype.val), e.Forall p := by
  intro e he
  obtain ⟨e', -, rfl⟩ := Option.map_eq_some_iff.1 he
  exact ⟨e'.first.place.2, e'.last.place.2⟩

theorem Finding.forall_map_val (f : Finding {x // p x}) : (f.map Subtype.val).Forall p := by
  rcases f with ⟨name, value⟩ | ⟨d, name, range⟩ | r
  · exact ⟨name.place.2, value.first.place.2, value.last.place.2⟩
  · exact ⟨name.place.2, Extent.forall_map_val range⟩
  · cases r with
    | noPorts d keyword range => exact ⟨keyword.place.2, Extent.forall_map_val range⟩
    | _ => exact Subtype.property _

/-- Tokens at places with a property are tokens of places that carry the property. -/
theorem exists_map_val {ts : List (Lexeme P)} (h : ∀ t ∈ ts, p t.place) :
    ∃ us : List (Lexeme {x // p x}), ts = us.map (Lexeme.map Subtype.val) := by
  refine ⟨ts.attach.map fun t => ⟨t.1.kind, t.1.place, h t.1 t.2⟩, ?_⟩
  rw [List.map_map]
  exact ts.attach_map_subtype_val.symm

namespace Outline

theorem readBody_forall {ts : Tokens P} (h : ∀ t ∈ ts, p t.place) {x : Finding P}
    (hx : x ∈ readBody ts) : x.Forall p := by
  obtain ⟨us, rfl⟩ := exists_map_val h
  rw [readBody_map] at hx
  obtain ⟨y, -, rfl⟩ := List.mem_map.1 hx
  exact y.forall_map_val

theorem ofTokens_forall {ts : Tokens P} (h : ∀ t ∈ ts, p t.place) {o : Outline P}
    (ho : ofTokens ts = .ok o) : o.Forall p := by
  obtain ⟨us, rfl⟩ := exists_map_val h
  rw [ofTokens_map] at ho
  rcases hus : ofTokens us with e | o'
  · rw [hus] at ho
    cases ho
  · rw [hus] at ho
    obtain rfl := Except.ok.inj ho
    refine ⟨o'.name.place.2, fun x hx => ?_⟩
    obtain ⟨y, -, rfl⟩ := List.mem_map.1 hx
    exact y.forall_map_val

theorem ofTokens_error_forall {ts : Tokens P} (h : ∀ t ∈ ts, p t.place) {e : ExtractError P}
    (he : ofTokens ts = .error e) : e.Forall p := by
  obtain ⟨us, rfl⟩ := exists_map_val h
  rw [ofTokens_map] at he
  rcases hus : ofTokens us with e' | o
  · rw [hus] at he
    obtain rfl := Except.error.inj he
    cases e' with
    | noModule => trivial
    | missingEndmodule t => exact t.place.2
    | missingName t => exact t.place.2
  · rw [hus] at he
    cases he

end Outline

end Forall

end VerilogScaffold
