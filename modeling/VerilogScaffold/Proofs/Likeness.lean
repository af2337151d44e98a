import VerilogScaffold.Proofs.FirstModule
import VerilogScaffold.Proofs.Site
import VerilogScaffold.Proofs.Stripping

/-!
# What a reader of names cannot tell apart

Values and ranges are copied as they stand, but which names a module declares is read off the kinds
of its tokens and the texts of its identifiers alone. A reader of names therefore cannot tell two
runs of tokens apart that are `Alike`: the same kinds, the same identifiers, and a number where the
other has two numbers in a row. Numbers are stepped over in an expression and in a bracket group,
and end a clause anywhere else.

Each reader leaves tokens that are alike where it was given such tokens, and finds the same names in
them; `Extraction.outcome_bare_of_alike` puts the readers together.
-/

namespace VerilogScaffold

/-- Whether two tokens are of one kind and, if they are identifiers, of one text. -/
structure Lexeme.SameName (t u : Lexeme Site) : Prop where
  kind : u.kind = t.kind
  text : t.kind.isIdentifier = true → u.place.text = t.place.text

/-- Whether a reader of names cannot tell the second run of tokens from the first: two numbers in a
row may be one. -/
inductive Alike : List (Lexeme Site) → List (Lexeme Site) → Prop
  | nil : Alike [] []
  | cons {t u : Lexeme Site} {ts us : List (Lexeme Site)} (head : t.SameName u)
      (tail : Alike ts us) :
      Alike (t :: ts) (u :: us)
  | numbers {t t' u : Lexeme Site} {ts us : List (Lexeme Site)} (first : t.kind = .number)
      (second : t'.kind = .number) (both : u.kind = .number) (tail : Alike ts us) :
      Alike (t :: t' :: ts) (u :: us)

/-- The name that a finding declares, and the direction if it is a port. -/
def Finding.declared? : Finding Site → Option (Option Direction × List Char)
  | .parameter name _ => some (none, name.place.text)
  | .port d name _ => some (some d, name.place.text)
  | .remark _ => none

namespace Alike

variable {ts us : List (Lexeme Site)}

theorem refl (ts : List (Lexeme Site)) : Alike ts ts := by
  induction ts with
  | nil => exact .nil
  | cons t ts ih => exact .cons ⟨rfl, fun _ => rfl⟩ ih

/-- Runs of tokens that start alike start with the same kind. -/
theorem head?_kind (h : Alike ts us) : us.head?.map Lexeme.kind = ts.head?.map Lexeme.kind := by
  cases h with
  | nil => rfl
  | cons head tail => simp [head.kind]
  | numbers first second both tail => simp [first, both]

theorem any (h : Alike ts us) {p : TokenKind → Bool} (hp : p .number = false) :
    us.any (p ·.kind) = ts.any (p ·.kind) := by
  induction h with
  | nil => rfl
  | cons head tail ih => simp [head.kind, ih]
  | numbers first second both tail ih => simp [first, second, both, hp, ih]

end Alike

namespace Outline

open Finding

variable {ts us : Tokens Site}

/-! ## Bracket groups and expressions -/

theorem alike_groupEnd (h : Alike ts us) (depth : Nat) (last last' : Lexeme Site) :
    Alike (groupEnd depth last ts).2 (groupEnd depth last' us).2 := by
  induction h generalizing depth last last' with
  | nil => exact .nil
  | @cons t u ts us head tail ih =>
    simp only [groupEnd, head.kind]
    split
    · exact ih ..
    · split
      · exact tail
      · exact ih ..
    · exact .cons head tail
    · exact ih ..
  | @numbers t t' u ts us first second both tail ih =>
    simp only [groupEnd, first, second, both]
    exact ih ..

theorem alike_splitExpression (h : Alike ts us) (depth : Nat) :
    Alike (splitExpression depth ts).2 (splitExpression depth us).2 ∧
      ((splitExpression depth us).1 = [] ↔ (splitExpression depth ts).1 = []) := by
  induction h generalizing depth with
  | nil => exact ⟨.nil, Iff.rfl⟩
  | @cons t u ts us head tail ih =>
    rw [splitExpression, splitExpression, head.kind]
    split
    · exact ⟨(ih _).1, by simp⟩
    · exact ⟨.cons head tail, Iff.rfl⟩
  | @numbers t t' u ts us first second both tail ih =>
    simp only [splitExpression, first, second, both, depthAfter?]
    exact ⟨(ih _).1, by simp⟩

/-! ## Types -/

theorem isTypeName_of_alike (h : Alike ts us) (word : TokenKind) :
    isTypeName word us = isTypeName word ts := by
  have hhead := h.head?_kind
  rcases ts with _ | ⟨t, ts⟩ <;> rcases us with _ | ⟨u, us⟩
  · rfl
  · cases hhead
  · cases hhead
  · rw [isTypeName, isTypeName, Option.some.inj hhead]

theorem alike_splitType (h : Alike ts us) (range range' : Option (Extent Site)) :
    Alike (splitType range ts).2 (splitType range' us).2 := by
  fun_induction splitType range ts generalizing us range' with
  | case1 =>
    cases h
    rw [splitType]
    exact .nil
  | case2 range t ts hsquare ih =>
    cases h with
    | cons head tail =>
      rw [splitType, if_pos (head.kind.trans hsquare)]
      exact ih (alike_groupEnd tail ..) _
    | numbers first => cases first.symm.trans hsquare
  | case3 range t ts hsquare hword ih =>
    cases h with
    | cons head tail =>
      rw [splitType, if_neg (by rwa [head.kind]), head.kind, isTypeName_of_alike tail, if_pos hword]
      exact ih tail _
    | numbers first =>
      rw [first] at hword
      simp [isTypeName, TokenKind.isQualifier, TokenKind.isNetType, TokenKind.isTypeWord] at hword
  | case4 range t ts hsquare hword =>
    have halike := h
    cases h with
    | cons head tail =>
      rw [splitType, if_neg (by rwa [head.kind]), head.kind, isTypeName_of_alike tail, if_neg hword]
      exact halike
    | @numbers t t' u ts us first second both tail =>
      have hnumber : (u.kind.isQualifier || isTypeName u.kind us) = false := by
        cases us <;> simp [both, isTypeName, TokenKind.isQualifier, TokenKind.isNetType,
          TokenKind.isTypeWord]
      rw [splitType, if_neg (by simp [both]), hnumber, if_neg (by simp)]
      exact halike

theorem alike_skipGroups (h : Alike ts us) : Alike (skipGroups ts) (skipGroups us) := by
  fun_induction skipGroups ts generalizing us with
  | case1 =>
    cases h
    rw [skipGroups]
    exact .nil
  | case2 t ts hsquare ih =>
    cases h with
    | cons head tail =>
      rw [skipGroups, if_pos (head.kind.trans hsquare)]
      exact ih (alike_groupEnd tail ..)
    | numbers first => cases first.symm.trans hsquare
  | case3 t ts hsquare =>
    have halike := h
    cases h with
    | cons head tail =>
      rw [skipGroups, if_neg (by rwa [head.kind])]
      exact halike
    | numbers first second both tail =>
      rw [skipGroups, if_neg (by simp [both])]
      exact halike

/-! ## Clauses -/

theorem continuesParameters_of_alike (h : Alike ts us) :
    continuesParameters us = continuesParameters ts := by
  have hcomma : (TokenKind.number == .comma) = false := rfl
  have hequals : (TokenKind.number == .equals) = false := rfl
  cases h with
  | nil => rfl
  | cons head tail =>
    cases tail with
    | nil => rfl
    | cons name tail =>
      cases tail with
      | nil => rfl
      | cons equals tail => simp only [continuesParameters, head.kind, name.kind, equals.kind]
      | numbers first second both tail => simp [continuesParameters, first, both, hequals]
    | @numbers t t' u ts us first second both tail =>
      rcases us with _ | ⟨v, us⟩ <;> simp [continuesParameters, first, both, TokenKind.isIdentifier]
  | @numbers t t' u ts us first second both tail =>
    rcases ts with _ | ⟨v, ts⟩ <;> rcases us with _ | ⟨w, _ | ⟨x, us⟩⟩ <;>
      simp [continuesParameters, first, both, hcomma]

theorem continuesPorts_of_alike (h : Alike ts us) : continuesPorts us = continuesPorts ts := by
  have hcomma : (TokenKind.number == .comma) = false := rfl
  cases h with
  | nil => rfl
  | cons head tail =>
    cases tail with
    | nil => rfl
    | cons name tail => simp only [continuesPorts, head.kind, name.kind]
    | numbers first second both tail => simp [continuesPorts, first, both, TokenKind.isIdentifier]
  | @numbers t t' u ts us first second both tail =>
    rcases us with _ | ⟨v, us⟩ <;> simp [continuesPorts, first, both, hcomma]

/-- Whether two readers of a clause found the same names, and left tokens that are alike. -/
structure SameClause (xs ys : List (Finding Site) × Tokens Site) : Prop where
  names : ys.1.filterMap declared? = xs.1.filterMap declared?
  rest : Alike xs.2 ys.2

theorem SameClause.append {found found' : List (Finding Site)}
    {xs ys : List (Finding Site) × Tokens Site}
    (hfound : found'.filterMap declared? = found.filterMap declared?) (h : SameClause xs ys) :
    SameClause (found ++ xs.1, xs.2) (found' ++ ys.1, ys.2) where
  names := by rw [List.filterMap_append, List.filterMap_append, hfound, h.names]
  rest := h.rest

theorem parameterItem_of_alike (h : Alike ts us) (keyword keyword' : Lexeme Site) :
    SameClause ([(parameterItem keyword ts).1], (parameterItem keyword ts).2.1)
        ([(parameterItem keyword' us).1], (parameterItem keyword' us).2.1) ∧
      (parameterItem keyword' us).2.2 = (parameterItem keyword ts).2.2 := by
  have halike := h
  cases h with
  | nil => exact ⟨⟨rfl, .nil⟩, rfl⟩
  | @numbers t t' u ts us first second both tail =>
    have hidentifier : TokenKind.number.isIdentifier = false := rfl
    simp only [parameterItem, first, both, hidentifier]
    exact ⟨⟨rfl, halike⟩, rfl⟩
  | @cons name name' ts us head tail =>
    simp only [parameterItem, head.kind]
    by_cases hname : name.kind.isIdentifier = true
    · simp only [hname, if_true]
      have hrest := tail
      cases tail with
      | nil => exact ⟨⟨rfl, .nil⟩, rfl⟩
      | numbers first second both tail =>
        simp only [first, both]
        exact ⟨⟨rfl, hrest⟩, rfl⟩
      | @cons equals equals' ts us hequals tail =>
        simp only [hequals.kind]
        by_cases hkind : equals.kind = .equals
        · obtain ⟨hafter, hempty⟩ := alike_splitExpression tail 0
          rw [if_pos hkind, if_pos hkind]
          refine ⟨⟨?_, hafter⟩, continuesParameters_of_alike hafter⟩
          rcases hvalue : (splitExpression 0 ts).1 with _ | ⟨v, value⟩
          · rw [hempty.2 hvalue]
            rfl
          · rcases hvalue' : (splitExpression 0 us).1 with _ | ⟨v', value'⟩
            · rw [hempty.1 hvalue'] at hvalue
              cases hvalue
            · simp [parameterFinding, extent?, declared?, head.text hname]
        · rw [if_neg hkind, if_neg hkind]
          exact ⟨⟨rfl, hrest⟩, rfl⟩
    · rw [if_neg hname, if_neg hname]
      exact ⟨⟨rfl, halike⟩, rfl⟩

theorem alike_drop_one (h : Alike ts us)
    (hts : continuesParameters ts = true ∨ continuesPorts ts = true) :
    Alike (ts.drop 1) (us.drop 1) := by
  cases h with
  | nil => exact .nil
  | cons head tail => exact tail
  | @numbers t t' u ts us first second both tail =>
    have hcomma : (TokenKind.number == .comma) = false := rfl
    rcases ts with _ | ⟨v, ts⟩ <;> simp [continuesParameters, continuesPorts, first, hcomma] at hts

theorem parameterClause_of_alike (h : Alike ts us) (keyword keyword' : Lexeme Site) :
    SameClause (parameterClause keyword ts) (parameterClause keyword' us) := by
  fun_induction parameterClause keyword ts generalizing us with
  | case1 ts item hmore more =>
    rename_i ih
    obtain ⟨hitem, hcontinues⟩ :=
      parameterItem_of_alike (alike_splitType h none none) keyword keyword'
    have hdrop := alike_drop_one hitem.rest (.inl (continuesParameters_of_parameterItem hmore))
    rw [parameterClause.eq_def keyword', if_pos (hcontinues.trans hmore)]
    exact SameClause.append hitem.names (ih hdrop)
  | case2 ts item =>
    rename_i hmore
    obtain ⟨hitem, hcontinues⟩ :=
      parameterItem_of_alike (alike_splitType h none none) keyword keyword'
    rw [parameterClause, if_neg (by rwa [hcontinues])]
    exact hitem

theorem portTail_of_alike (h : Alike ts us) : Alike (portTail ts).2 (portTail us).2 := by
  have hskip := alike_skipGroups h
  rw [portTail, portTail]
  have hskip' := hskip
  generalize skipGroups ts = xs at hskip hskip' ⊢
  generalize skipGroups us = ys at hskip hskip' ⊢
  cases hskip with
  | nil => exact .nil
  | @cons t u _ _ head tail =>
    simp only [head.kind]
    by_cases hkind : t.kind = .equals
    · rw [if_pos hkind, if_pos hkind]
      exact (alike_splitExpression tail 0).1
    · rw [if_neg hkind, if_neg hkind]
      exact hskip'
  | numbers first second both tail =>
    simpa [first, both] using hskip'

theorem filterMap_portFindings (d : Direction) (range : Option (Extent Site)) (name : Lexeme Site)
    (hasDefault : Bool) :
    (portFindings d range name hasDefault).filterMap declared? = [(some d, name.place.text)] := by
  cases hasDefault <;> rfl

/-- What is found for a port declares its name, whatever its range and default are. -/
theorem filterMap_portFindings_congr {name name' : Lexeme Site}
    (h : name'.place.text = name.place.text)
    (d : Direction) {range range' : Option (Extent Site)} {hasDefault hasDefault' : Bool} :
    (portFindings d range' name' hasDefault').filterMap declared? =
      (portFindings d range name hasDefault).filterMap declared? := by
  rw [filterMap_portFindings, filterMap_portFindings, h]

theorem portNames_of_alike (h : Alike ts us) (d : Direction) (range range' : Option (Extent Site)) :
    SameClause (portNames d range ts) (portNames d range' us) := by
  fun_induction portNames d range ts generalizing us with
  | case1 =>
    cases h
    rw [portNames]
    exact ⟨rfl, .nil⟩
  | case2 name ts hname found hmore more =>
    rename_i ih
    cases h with
    | cons head tail =>
      have hrest := portTail_of_alike tail
      rw [portNames, if_pos (by rwa [head.kind]),
        if_pos ((continuesPorts_of_alike hrest).trans hmore)]
      exact SameClause.append (filterMap_portFindings_congr (head.text hname) d)
        (ih (alike_drop_one hrest (.inr hmore)))
    | numbers first =>
      rw [first] at hname
      cases hname
  | case3 name ts hname found =>
    rename_i hmore
    cases h with
    | cons head tail =>
      have hrest := portTail_of_alike tail
      rw [portNames, if_pos (by rwa [head.kind]),
        if_neg fun hboth => hmore ((continuesPorts_of_alike hrest).symm.trans hboth)]
      exact ⟨filterMap_portFindings_congr (head.text hname) d, hrest⟩
    | numbers first =>
      rw [first] at hname
      cases hname
  | case4 name ts hname =>
    have halike := h
    cases h with
    | cons head tail =>
      rw [portNames, if_neg (by rwa [head.kind])]
      exact ⟨rfl, halike⟩
    | numbers first second both tail =>
      rw [portNames, if_neg (by simp [both, TokenKind.isIdentifier])]
      exact ⟨rfl, halike⟩

/-- A clause that names no port declares nothing. -/
theorem filterMap_portClause (d : Direction) (keyword : Lexeme Site) (ts : Tokens Site) :
    (portClause d keyword ts).1.filterMap declared? =
      (portNames d (splitType none ts).1 (splitType none ts).2).1.filterMap declared? := by
  rw [portClause_eq]
  split
  · rename_i hempty
    rw [List.isEmpty_iff.1 hempty]
    rfl
  · rfl

theorem portClause_of_alike (h : Alike ts us) (d : Direction) (keyword keyword' : Lexeme Site) :
    SameClause (portClause d keyword ts) (portClause d keyword' us) := by
  have hnames := portNames_of_alike (alike_splitType h none none) d (splitType none ts).1
    (splitType none us).1
  refine ⟨by rw [filterMap_portClause, filterMap_portClause, hnames.names], ?_⟩
  rw [portClause_eq, portClause_eq]
  exact hnames.rest

/-! ## Modules -/

theorem readBody_of_alike (h : Alike ts us) :
    (readBody us).filterMap declared? = (readBody ts).filterMap declared? := by
  fun_induction readBody ts generalizing us with
  | case1 =>
    cases h
    rw [readBody]
  | case2 t ts hkind =>
    rename_i ih
    cases h with
    | @cons _ u _ us head tail =>
      have hclause := parameterClause_of_alike tail t u
      rw [readBody_parameter (head.kind.trans hkind), List.filterMap_append, List.filterMap_append,
        hclause.names, ih hclause.rest]
    | numbers first => cases first.symm.trans hkind
  | case3 t ts d hkind =>
    rename_i ih
    cases h with
    | @cons _ u _ us head tail =>
      have hclause := portClause_of_alike tail d t u
      rw [readBody_direction (head.kind.trans hkind), List.filterMap_append, List.filterMap_append,
        hclause.names, ih hclause.rest]
    | numbers first => cases first.symm.trans hkind
  | case4 t ts hparameter hdirection =>
    rename_i ih
    cases h with
    | @cons _ u _ us head tail =>
      rw [readBody_other (by rwa [head.kind]) (by rwa [head.kind]), ih tail]
    | numbers first second both tail =>
      -- the second number stands for both
      exact ih (.cons ⟨both.trans second.symm,
        fun hname => by rw [second] at hname; cases hname⟩ tail)

end Outline

/-- A signature without its values and ranges: its names only. -/
def Signature.bare (s : Signature) : Signature where
  name := s.name
  parameters := s.parameters.map fun p => ⟨p.name, ""⟩
  inputs := s.inputs.map fun p => ⟨p.name, ""⟩
  outputs := s.outputs.map fun p => ⟨p.name, ""⟩
  inouts := s.inouts.map fun p => ⟨p.name, ""⟩

namespace Signature

variable {o o' : Outline Site}

theorem names_parameters_ofSites (o : Outline Site) :
    (ofSites o).parameters.map (fun p => (⟨p.name, ""⟩ : Parameter)) =
      (o.findings.filterMap Finding.declared?).filterMap fun p =>
        if p.1 = none then some ⟨String.ofList p.2, ""⟩ else none := by
  rw [ofSites, List.map_map, List.map_filterMap, List.filterMap_filterMap]
  congr 1
  funext x
  cases x <;> rfl

theorem names_ports_ofSites (o : Outline Site) (d : Direction) :
    (((o.findings.filterMap (Finding.port? d)).map portOf).map fun p => (⟨p.name, ""⟩ : Port)) =
      (o.findings.filterMap Finding.declared?).filterMap fun p =>
        if p.1 = some d then some ⟨String.ofList p.2, ""⟩ else none := by
  rw [List.map_map, List.map_filterMap, List.filterMap_filterMap]
  congr 1
  funext x
  rcases x with _ | ⟨d', name, range⟩ | _
  · rfl
  · by_cases hd : d' = d <;> simp [Finding.port?, Finding.declared?, hd, portOf]
  · rfl

/-- The names of a signature are what its outline declares. -/
theorem bare_ofSites_congr (hname : o'.name.place.text = o.name.place.text)
    (hfindings : o'.findings.filterMap Finding.declared? = o.findings.filterMap Finding.declared?) :
    (ofSites o').bare = (ofSites o).bare := by
  have hports : ∀ d, ((o'.findings.filterMap (Finding.port? d)).map portOf).map
      (fun p => (⟨p.name, ""⟩ : Port)) = ((o.findings.filterMap (Finding.port? d)).map portOf).map
      fun p => ⟨p.name, ""⟩ := fun d => by
    rw [names_ports_ofSites, names_ports_ofSites, hfindings]
  have hparameters : (ofSites o').parameters.map (fun p => (⟨p.name, ""⟩ : Parameter)) =
      (ofSites o).parameters.map fun p => ⟨p.name, ""⟩ := by
    rw [names_parameters_ofSites, names_parameters_ofSites, hfindings]
  exact Signature.mk.injEq .. ▸
    ⟨congrArg String.ofList hname, hparameters, hports .input, hports .output,
    hports .inout⟩

end Signature

namespace Outline

variable {ts us : Tokens Site}

theorem alike_span (h : Alike ts us) {p : TokenKind → Bool} (hp : p .number = true) :
    Alike (ts.takeWhile (p ·.kind)) (us.takeWhile (p ·.kind)) ∧
      Alike (ts.dropWhile (p ·.kind)) (us.dropWhile (p ·.kind)) := by
  induction h with
  | nil => exact ⟨.nil, .nil⟩
  | @cons t u ts us head tail ih =>
    rcases hkind : p t.kind with _ | _
    · simpa [head.kind, hkind] using ⟨.nil, .cons head tail⟩
    · simpa [head.kind, hkind] using ⟨.cons head ih.1, ih.2⟩
  | numbers first second both tail ih =>
    simpa [first, second, both, hp] using ⟨.numbers first second both ih.1, ih.2⟩

theorem map_unit_eq {t u : Lexeme Site} (h : u.kind = t.kind) :
    u.map (fun _ => ()) = t.map fun _ => () :=
  congrArg (Lexeme.mk · ()) h

/-- An answer as far as names go. -/
def bare (r : Except (ExtractError Site) (Outline Site)) : Except (ExtractError Unit) Signature :=
  (r.map fun o => (Signature.ofSites o).bare).mapError (ExtractError.map fun _ => ())

theorem bare_ofBody_of_alike (h : Alike ts us) {closer closer' : Lexeme Site}
    (hcloser : closer'.kind = closer.kind) :
    bare (ofBody closer' us) = bare (ofBody closer ts) := by
  cases h with
  | nil => exact congrArg (Except.error ∘ ExtractError.missingName) (map_unit_eq hcloser)
  | numbers first second both tail =>
    have hidentifier : TokenKind.number.isIdentifier = false := rfl
    simp only [ofBody, first, both, hidentifier]
    exact congrArg (Except.error ∘ ExtractError.missingName) (map_unit_eq (both.trans first.symm))
  | @cons name name' ts us head tail =>
    rw [ofBody, ofBody, head.kind]
    by_cases hname : name.kind.isIdentifier = true
    · rw [if_pos hname, if_pos hname]
      exact congrArg Except.ok
        (Signature.bare_ofSites_congr (head.text hname) (readBody_of_alike tail))
    · rw [if_neg hname, if_neg hname]
      exact congrArg (Except.error ∘ ExtractError.missingName) (map_unit_eq head.kind)

/-- What `ofModule` answers where the module ends. -/
theorem ofModule_of_dropWhile {opener closer : Lexeme Site} {after : Tokens Site}
    (h : ts.dropWhile (fun t => !(t.kind == .keyword .moduleClose)) = closer :: after) :
    ofModule opener ts =
      ofBody closer (ts.takeWhile fun t => !(t.kind == .keyword .moduleClose)) := by
  simp only [ofModule, h]
  cases ts.takeWhile fun t => !(t.kind == .keyword .moduleClose) <;> rfl

theorem bare_ofModule_of_alike (h : Alike ts us) {opener opener' : Lexeme Site}
    (hopener : opener'.kind = opener.kind) :
    bare (ofModule opener' us) = bare (ofModule opener ts) := by
  obtain ⟨hbody, hrest⟩ := alike_span h (p := fun kind => !(kind == .keyword .moduleClose)) rfl
  have hhead := hrest.head?_kind
  rcases hts : ts.dropWhile fun t => !(t.kind == .keyword .moduleClose) with _ | ⟨closer, after⟩ <;>
    rcases hus : us.dropWhile fun t => !(t.kind == .keyword .moduleClose) with _ |
      ⟨closer', after'⟩ <;>
    rw [hts, hus] at hhead
  · simp only [ofModule, hts, hus]
    exact congrArg (Except.error ∘ ExtractError.missingEndmodule) (map_unit_eq hopener)
  · cases hhead
  · cases hhead
  · rw [ofModule_of_dropWhile hts, ofModule_of_dropWhile hus]
    exact bare_ofBody_of_alike hbody (Option.some.inj hhead)

theorem bare_ofTokens_of_alike (h : Alike ts us) : bare (ofTokens us) = bare (ofTokens ts) := by
  induction h with
  | nil => rfl
  | @cons t u ts us head tail ih =>
    rw [ofTokens, ofTokens, head.kind]
    split
    · exact bare_ofModule_of_alike tail head.kind
    · exact ih
  | @numbers t t' u ts us first second both tail ih =>
    simpa [ofTokens, first, second, both] using ih

end Outline

/-! ## Blocks -/

theorem Stripped.alike_ofTokensFrom {ts us : List (Lexeme Site)} (h : Alike ts us)
    (inside : Option Block) :
    Alike (ofTokensFrom inside ts).tokens (ofTokensFrom inside us).tokens := by
  induction h generalizing inside with
  | nil => cases inside <;> exact .nil
  | @cons t u ts us head tail ih =>
    rcases inside with _ | b
    · by_cases hopen : ∃ b, t.kind = .keyword (.blockOpen b)
      · obtain ⟨b, hopen⟩ := hopen
        have hcloses : closes b us = closes b ts :=
          tail.any (p := (· == .keyword (.blockClose b))) rfl
        rw [ofTokensFrom_cons_of_open hopen,
          ofTokensFrom_cons_of_open (head.kind.trans hopen), hcloses]
        split
        · exact ih _
        · exact .cons head (ih _)
      · have ht : ∀ b, t.kind ≠ .keyword (.blockOpen b) := fun b hb => hopen ⟨b, hb⟩
        rw [ofTokensFrom_cons_of_not_open ht, ofTokensFrom_cons_of_not_open (by rwa [head.kind])]
        exact .cons head (ih _)
    · rw [ofTokensFrom, ofTokensFrom, head.kind]
      exact ih _
  | @numbers t t' u ts us first second both tail ih =>
    rcases inside with _ | b
    · have hopen : ∀ {t : Lexeme Site}, t.kind = .number →
          ∀ b, t.kind ≠ .keyword (.blockOpen b) := by
        intro t ht b hb
        cases ht.symm.trans hb
      rw [ofTokensFrom_cons_of_not_open (hopen first), ofTokensFrom_cons_of_not_open (hopen second),
        ofTokensFrom_cons_of_not_open (hopen both)]
      exact .numbers first second both (ih _)
    · simpa [ofTokensFrom, first, second, both] using ih (some b)

/-- **Texts whose tokens are alike declare the same names.** -/
theorem Extraction.outcome_bare_of_alike {a b : String} (ha : Addressable a) (hb : Addressable b)
    (h : Alike (lexemes a.toList) (lexemes b.toList)) {x y : Extraction} (hx : ofSource? a = some x)
    (hy : ofSource? b = some y) : y.outcome.map Signature.bare = x.outcome.map Signature.bare := by
  have hbare : ∀ {source : String}, Addressable source → ∀ {x}, ofSource? source = some x →
      x.outcome.map Signature.bare = Outline.bare (Outline.read source.toList) := by
    intro source ha x hx
    rw [outcome_eq ha hx, Outline.bare]
    cases Outline.read source.toList <;> rfl
  rw [hbare ha hx, hbare hb hy]
  exact Outline.bare_ofTokens_of_alike (Stripped.alike_ofTokensFrom h none)

end VerilogScaffold
