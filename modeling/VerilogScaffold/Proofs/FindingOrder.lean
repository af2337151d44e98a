import VerilogScaffold.Proofs.Finding
import VerilogScaffold.Proofs.Lookup

/-!
# Findings stand in order

Each finding is about one token: the name that it declares, or the token that a remark is made on.
Clauses are read from left to right, so these tokens are met in the order in which they stand, with
two exceptions. A port and the remark on its default are about one name, and a remark that a clause
has no name is about the keyword in front of it, where the scan has been already.
`Outline.selected_sublist` says that neither spoils the order: any choice of findings that does not
take both a port and the remark on its default is about tokens that follow each other.

The keyword is why each clause is compared with its tokens and the keyword in front of them. A
clause that goes on does not need it, because what it goes on with has a name
(`Outline.parameterClause_selected`).
-/

namespace VerilogScaffold

variable {P : Type}

/-- The token that a finding is about. -/
def Finding.token : Finding P → Lexeme P
  | .parameter name _ | .port _ name _ => name
  | .remark r => r.token

/-- Whether a choice of findings never takes both a port and the remark on its default. -/
def PartsPorts (select : Finding P → Bool) : Prop :=
  ∀ direction name range, select (.remark (.portDefault name)) = true →
    select (.port direction name range) = false

namespace Outline

variable {select : Finding P → Bool}

/-- The tokens that chosen findings are about. -/
def selected (select : Finding P → Bool) (found : List (Finding P)) : List (Lexeme P) :=
  (found.filter select).map Finding.token

theorem selected_append (found more : List (Finding P)) :
    selected select (found ++ more) = selected select found ++ selected select more := by
  unfold selected
  rw [List.filter_append, List.map_append]

theorem selected_singleton_sublist (x : Finding P) : (selected select [x]).Sublist [x.token] :=
  List.filter_sublist.map Finding.token

/-! ## Parameters -/

theorem token_parameterFinding (name : Lexeme P) (value : Tokens P) :
    (parameterFinding name value).token = name := by
  unfold parameterFinding
  split <;> rfl

/-- One parameter is about a token in front of those it leaves, unless no name is there. -/
theorem parameterItem_token (keyword : Lexeme P) (ts : Tokens P) :
    ((parameterItem keyword ts).1.token :: (parameterItem keyword ts).2.1).Sublist ts ∨
      parameterItem keyword ts = (.remark (.parameterWithoutName keyword), ts, false) ∧
        ¬ StartsName ts := by
  rcases ts with _ | ⟨name, _ | ⟨equals, rest⟩⟩
  · right
    exact ⟨rfl, id⟩
  · rw [parameterItem]
    split
    · left
      exact List.Sublist.refl _
    · right
      exact ⟨rfl, ‹_›⟩
  · rw [parameterItem]
    split
    · left
      split
      · rw [token_parameterFinding]
        exact ((splitExpression_suffix 0 rest).sublist.cons equals).cons_cons name
      · exact List.Sublist.refl _
    · right
      exact ⟨rfl, ‹_›⟩

/-- A clause goes on with a name and no type in front of it. -/
theorem splitType_of_continuesParameters {comma : Lexeme P} {ts : Tokens P}
    (h : continuesParameters (comma :: ts) = true) :
    (splitType none ts).2 = ts ∧ StartsName ts := by
  rcases ts with _ | ⟨name, _ | ⟨equals, rest⟩⟩
  · cases h
  · cases h
  · simp only [continuesParameters, Bool.and_eq_true, beq_iff_eq] at h
    obtain ⟨⟨-, hname⟩, hequals⟩ := h
    have hends : Header.EndsName (equals :: rest) :=
      ⟨equals, rest, rfl, by rw [hequals]; rfl, by rw [hequals]; rfl⟩
    exact ⟨congrArg Prod.snd (Header.splitType_name none ⟨name, hname⟩ hends), hname⟩

/-- What a parameter clause finds stands between its keyword and the tokens it leaves. The keyword
is not needed where the clause goes on. -/
theorem parameterClause_selected (keyword : Lexeme P) (ts : Tokens P) :
    (selected select (parameterClause keyword ts).1 ++ (parameterClause keyword ts).2).Sublist
    (keyword :: ts) ∧
      ∀ comma, continuesParameters (comma :: ts) = true →
        (selected select (parameterClause keyword ts).1 ++
          (parameterClause keyword ts).2).Sublist ts := by
  fun_induction parameterClause keyword ts with
  | case1 ts item hmore more ih =>
    have hgoesOn : continuesParameters item.2.1 = true := continuesParameters_of_parameterItem hmore
    have hitem : (item.1.token :: item.2.1).Sublist (splitType none ts).2 := by
      rcases parameterItem_token keyword (splitType none ts).2 with h | ⟨h, -⟩
      · exact h
      · rw [show item = _ from h] at hmore
        cases hmore
    obtain ⟨comma, hcomma⟩ : ∃ comma, comma :: item.2.1.drop 1 = item.2.1 := by
      cases hcut : item.2.1 with
      | nil =>
        rw [hcut] at hgoesOn
        cases hgoesOn
      | cons comma us => exact ⟨comma, rfl⟩
    have hrest : (selected select more.1 ++ more.2).Sublist item.2.1 := by
      rw [← hcomma] at hgoesOn
      exact (ih.2 comma hgoesOn).trans (List.drop_sublist 1 item.2.1)
    have hclause : (selected select (item.1 :: more.1) ++ more.2).Sublist ts := by
      rw [← List.singleton_append, selected_append, List.append_assoc]
      exact ((selected_singleton_sublist item.1).append hrest).trans
        (hitem.trans (splitType_suffix none ts).sublist)
    exact ⟨hclause.cons keyword, fun _ _ => hclause⟩
  | case2 ts item hmore =>
    have hsuffix := (splitType_suffix none ts).sublist
    have hone : (selected select [item.1] ++ item.2.1).Sublist (item.1.token :: item.2.1) :=
      (selected_singleton_sublist item.1).append_right item.2.1
    rcases parameterItem_token keyword (splitType none ts).2 with h | ⟨h, hnameless⟩
    · have hclause := hone.trans (h.trans hsuffix)
      exact ⟨hclause.cons keyword, fun _ _ => hclause⟩
    · have hitem : item =
          (.remark (.parameterWithoutName keyword), (splitType none ts).2, false) := h
      rw [hitem] at hone ⊢
      refine ⟨hone.trans (hsuffix.cons_cons keyword), fun comma hcomma => ?_⟩
      obtain ⟨hstays, hname⟩ := splitType_of_continuesParameters hcomma
      rw [hstays] at hnameless
      exact absurd hname hnameless

/-! ## Ports -/

theorem selected_portFindings (hselect : PartsPorts select) (direction : Direction)
    (range : Option (Extent P)) (name : Lexeme P) (hasDefault : Bool) :
    (selected select (portFindings direction range name hasDefault)).Sublist [name] := by
  cases hasDefault with
  | false => exact selected_singleton_sublist (.port direction name range)
  | true =>
    show (selected select ([.remark (.portDefault name)] ++ [.port direction name range])).Sublist
      [name]
    rw [selected_append]
    cases hremark : select (.remark (.portDefault name)) with
    | false =>
      have hnone : selected select [.remark (.portDefault name)] = [] := by
        rw [selected, List.filter_singleton, hremark]
        rfl
      rw [hnone, List.nil_append]
      exact selected_singleton_sublist (.port direction name range)
    | true =>
      have hnone : selected select [.port direction name range] = [] := by
        rw [selected, List.filter_singleton, hselect direction name range hremark]
        rfl
      rw [hnone, List.append_nil]
      exact selected_singleton_sublist (.remark (.portDefault name))

theorem portNames_selected (hselect : PartsPorts select) (direction : Direction)
    (range : Option (Extent P)) (ts : Tokens P) :
    (selected select (portNames direction range ts).1 ++
      (portNames direction range ts).2).Sublist ts := by
  fun_induction portNames direction range ts with
  | case1 => exact List.Sublist.refl _
  | case2 name ts hname found hmore more ih =>
    have hrest := ih.trans ((List.drop_sublist 1 _).trans (portTail_suffix ts).sublist)
    rw [selected_append, List.append_assoc]
    exact (selected_portFindings hselect direction range name _).append hrest
  | case3 name ts hname found hmore =>
    exact (selected_portFindings hselect direction range name _).append (portTail_suffix ts).sublist
  | case4 => exact List.Sublist.refl _

theorem portClause_selected (hselect : PartsPorts select) (direction : Direction)
    (keyword : Lexeme P) (ts : Tokens P) :
    (selected select (portClause direction keyword ts).1 ++
      (portClause direction keyword ts).2).Sublist
      (keyword :: ts) := by
  have hsuffix := (splitType_suffix none ts).sublist
  rw [portClause_eq]
  dsimp only
  split
  · have hrest := (portNames_suffix direction (splitType none ts).1 (splitType none ts).2).sublist
    exact (selected_singleton_sublist (.remark (.noPorts direction keyword _))).append
      (hrest.trans hsuffix)
  · exact ((portNames_selected hselect direction _ _).trans hsuffix).cons keyword

/-! ## Bodies -/

/-- **What a body holds is found from left to right.** -/
theorem selected_sublist (hselect : PartsPorts select) (ts : Tokens P) :
    (selected select (readBody ts)).Sublist ts := by
  fun_induction readBody ts with
  | case1 => exact List.Sublist.refl _
  | case2 t ts hkind ih =>
    rw [selected_append]
    exact (ih.append_left _).trans (parameterClause_selected t ts).1
  | case3 t ts d hkind ih =>
    rw [selected_append]
    exact (ih.append_left _).trans (portClause_selected hselect d t ts)
  | case4 t ts hparameter hdirection ih => exact ih.cons t

/-- An outline's name stands in front of all that it finds. -/
theorem name_cons_selected_sublist (hselect : PartsPorts select) {ts : Tokens P} {o : Outline P}
    (ho : ofTokens ts = .ok o) : (o.name :: selected select o.findings).Sublist ts := by
  obtain ⟨before, opener, body, closer, rest, rfl, -, -, -, -, hresult⟩ := exists_module_of_ok ho
  obtain ⟨body, rfl, -, hfindings⟩ := ofBody_eq_ok_iff.1 hresult
  rw [hfindings]
  have hbody : (selected select (readBody body)).Sublist (body ++ closer :: rest) :=
    (selected_sublist hselect body).trans (List.sublist_append_left body _)
  exact ((hbody.cons_cons o.name).cons opener).trans (List.sublist_append_right before _)

end Outline

end VerilogScaffold
