import Mathlib
import VerilogScaffold.Proofs.HeaderReading

/-!
# Where findings stand

What the reading of a body finds stands in the body: a parameter as its name, `=` and a run of
tokens that is its value, a port's range as a run of tokens from one square bracket to another, with
all brackets between them closed. `Outline.Holds` says this of one finding, and `readBody_holds` of
all that a body has. Later proofs take the text of a value or of a range out of its source by it,
and never open the readers.
-/

namespace VerilogScaffold.Outline

variable {P : Type} {ts us : Tokens P}

/-- Tokens whose square brackets are closed, and among which no statement ends. -/
structure Balanced (ts : Tokens P) : Prop where
  closed : Header.Closed (· == .opening .square) (· == .closing .square) 0 ts
  statement : ∀ t ∈ ts, t.kind ≠ .semicolon

/-- A run of balanced tokens from an opening to a closing square bracket. -/
structure IsRange (run : Tokens P) (e : Extent P) : Prop where
  extent : extent? run = some e
  first : e.first.kind = .opening .square
  last : e.last.kind = .closing .square
  balanced : Balanced run

/-- Whether tokens hold a range. -/
def Spans (ts : Tokens P) (e : Extent P) : Prop :=
  ∃ before run after, ts = before ++ (run ++ after) ∧ IsRange run e

/-- Whether tokens hold a parameter: its name, `=`, and an expression that is all of its value. -/
def Declares (ts : Tokens P) (name : Lexeme P) (value : Extent P) : Prop :=
  ∃ before equals run after, ts = before ++ name :: equals :: (run ++ after) ∧
    extent? run = some value ∧ splitExpression 0 run = (run, [])

/-- Whether a finding stands among tokens. -/
def Holds (ts : Tokens P) : Finding P → Prop
  | .parameter name value => name.kind.isIdentifier = true ∧ name ∈ ts ∧ Declares ts name value
  | .port _ name range => name.kind.isIdentifier = true ∧ name ∈ ts ∧ ∀ e ∈ range, Spans ts e
  | .remark _ => True

/-! ## More tokens on either side -/

theorem Spans.append_left {e : Extent P} (h : Spans ts e) (us : Tokens P) : Spans (us ++ ts) e := by
  obtain ⟨before, run, after, rfl, hrun⟩ := h
  exact ⟨us ++ before, run, after, by rw [List.append_assoc], hrun⟩

theorem Spans.append_right {e : Extent P} (h : Spans ts e) (us : Tokens P) :
    Spans (ts ++ us) e := by
  obtain ⟨before, run, after, rfl, hrun⟩ := h
  exact ⟨before, run, after ++ us, by simp, hrun⟩

theorem Holds.suffix {x : Finding P} (h : Holds ts x) (hsuffix : ts <:+ us) : Holds us x := by
  obtain ⟨front, rfl⟩ := hsuffix
  rcases x with ⟨name, value⟩ | ⟨d, name, range⟩ | r
  · obtain ⟨hkind, hmem, before, equals, run, after, rfl, hvalue⟩ := h
    exact ⟨hkind, List.mem_append_right _ hmem, front ++ before, equals, run, after,
      by rw [List.append_assoc], hvalue⟩
  · obtain ⟨hkind, hmem, hrange⟩ := h
    exact ⟨hkind, List.mem_append_right _ hmem, fun e he => (hrange e he).append_left front⟩
  · trivial

/-! ## Parameters -/

/-- An expression that ends before other tokens ends where it is alone. -/
theorem splitExpression_fst (depth : Nat) (ts : Tokens P) :
    splitExpression depth (splitExpression depth ts).1 = ((splitExpression depth ts).1, []) := by
  fun_induction splitExpression depth ts with
  | case1 => rfl
  | case2 depth t ts d hdepth ih => simp only [splitExpression, hdepth, ih]
  | case3 => rfl

theorem parameterItem_holds (keyword : Lexeme P) (ts : Tokens P) :
    Holds ts (parameterItem keyword ts).1 := by
  rcases ts with _ | ⟨name, _ | ⟨equals, rest⟩⟩
  · trivial
  · by_cases hname : name.kind.isIdentifier = true
    · simp [parameterItem, hname, Holds]
    · simp [parameterItem, hname, Holds]
  · rw [parameterItem]
    split
    · rename_i hname
      split
      · simp only [parameterFinding]
        split
        · rename_i value hvalue
          refine ⟨hname, List.mem_cons_self .., [], equals, (splitExpression 0 rest).1,
            (splitExpression 0 rest).2, ?_, hvalue, splitExpression_fst 0 rest⟩
          rw [splitExpression_append]
          rfl
        · trivial
      · trivial
    · trivial

theorem parameterClause_holds (keyword : Lexeme P) (ts : Tokens P) {x : Finding P}
    (hx : x ∈ (parameterClause keyword ts).1) : Holds ts x := by
  have hitem : ∀ ts, Holds ts (parameterItem keyword (splitType none ts).2).1 := fun ts =>
    (parameterItem_holds keyword _).suffix (splitType_suffix none ts)
  fun_induction parameterClause keyword ts with
  | case1 ts item hmore more ih =>
    rcases List.mem_cons.1 hx with rfl | hx
    · exact hitem ts
    · exact (ih hx).suffix ((List.drop_suffix 1 _).trans
        ((parameterItem_suffix keyword _).trans (splitType_suffix none ts)))
  | case2 ts item hmore =>
    obtain rfl := List.mem_singleton.1 hx
    exact hitem ts

/-! ## Ports -/

/-- Whether the next token is a name. -/
def StartsName : Tokens P → Prop
  | [] => False
  | t :: _ => t.kind.isIdentifier = true

theorem Balanced.nil : Balanced ([] : Tokens P) := ⟨.nil, by simp⟩

/-- Two balanced runs are balanced together. -/
theorem Balanced.append (h : Balanced ts) (h' : Balanced us) : Balanced (ts ++ us) :=
  ⟨h.closed.append h'.closed, List.forall_mem_append.2 ⟨h.statement, h'.statement⟩⟩

/-- A run ends with the last token of its extent. -/
theorem getLast?_of_extent? {e : Extent P} (h : extent? ts = some e) :
    ts.getLast? = some e.last := by
  rcases ts with _ | ⟨t, ts⟩
  · cases h
  · obtain rfl := Option.some.inj h
    rw [List.getLast?_cons, List.getLastD_eq_getLast?]

/-- A run that goes on to another token. -/
theorem extent?_append_concat {e : Extent P} (h : extent? ts = some e) (us : Tokens P)
    (t : Lexeme P) :
    extent? (ts ++ (us ++ [t])) = some ⟨e.first, t⟩ := by
  rcases ts with _ | ⟨u, ts⟩
  · cases h
  · obtain rfl := Option.some.inj h
    rw [List.cons_append, ← List.append_assoc, extent?, List.getLastD_concat]

/-- A bracket group is closed by its last token, unless a semicolon or the end of the module cuts it
short. -/
theorem groupEnd_closed (depth : Nat) (last : Lexeme P) (ts : Tokens P) :
    (∃ inner, ts = inner ++ (groupEnd depth last ts).1 :: (groupEnd depth last ts).2 ∧
        (groupEnd depth last ts).1.kind = .closing .square ∧
        Header.Closed (· == .opening .square) (· == .closing .square) (depth + 1)
          (inner ++ [(groupEnd depth last ts).1]) ∧ ∀ t ∈ inner, t.kind ≠ .semicolon) ∨
      (groupEnd depth last ts).2 = [] ∨
      ∃ t rest, (groupEnd depth last ts).2 = t :: rest ∧ t.kind = .semicolon := by
  fun_induction groupEnd depth last ts with
  | case1 => exact .inr (.inl rfl)
  | case2 depth last t ts hkind ih =>
    refine ih.imp_left ?_
    rintro ⟨inner, htokens, hclosing, hclosed, hstatement⟩
    exact ⟨t :: inner, congrArg (t :: ·) htokens, hclosing,
      hclosed.cons_opening (by simp [hkind]) (by simp [hkind]),
      List.forall_mem_cons.2 ⟨by simp [hkind], hstatement⟩⟩
  | case3 last t ts hkind =>
    exact .inl ⟨[], rfl, hkind,
      Header.Closed.nil.cons_closing (by simp [hkind]) (by simp [hkind]), by simp⟩
  | case4 last t ts hkind depth ih =>
    refine ih.imp_left ?_
    rintro ⟨inner, htokens, hclosing, hclosed, hstatement⟩
    exact ⟨t :: inner, congrArg (t :: ·) htokens, hclosing,
      hclosed.cons_closing (by simp [hkind]) (by simp [hkind]),
      List.forall_mem_cons.2 ⟨by simp [hkind], hstatement⟩⟩
  | case5 depth last t ts hkind => exact .inr (.inr ⟨t, ts, rfl, hkind⟩)
  | case6 depth last t ts hopening hclosing hother ih =>
    refine ih.imp_left ?_
    rintro ⟨inner, htokens, hlast, hclosed, hstatement⟩
    exact ⟨t :: inner, congrArg (t :: ·) htokens, hlast,
      hclosed.cons_other (by simpa using hopening) (by simpa using hclosing),
      List.forall_mem_cons.2 ⟨hother, hstatement⟩⟩

/-- A bracket group that is not cut short is a range. -/
theorem isRange_group {t : Lexeme P} (ht : t.kind = .opening .square) {inner : Tokens P}
    {last : Lexeme P} (hlast : last.kind = .closing .square)
    (hclosed : Header.Closed (· == .opening .square) (· == .closing .square) 1 (inner ++ [last]))
    (hstatement : ∀ u ∈ inner, u.kind ≠ .semicolon) :
    IsRange (t :: (inner ++ [last])) ⟨t, last⟩ where
  extent := by rw [extent?, List.getLastD_concat]
  first := ht
  last := hlast
  balanced := by
    refine ⟨hclosed.cons_opening (by simp [ht]) (by simp [ht]), ?_⟩
    simpa [ht, hlast, or_imp, forall_and] using hstatement

/-- The words of a type are balanced. -/
theorem balanced_word {t : Lexeme P} {ts : Tokens P}
    (h : (t.kind.isQualifier || isTypeName t.kind ts) = true) : Balanced [t] := by
  have hkind : ∀ kind, kind = TokenKind.semicolon ∨ kind = .opening .square ∨
      kind = .closing .square →
      t.kind ≠ kind := by
    rintro kind hkind rfl
    rcases hkind with hkind | hkind | hkind <;> rw [hkind] at h <;> cases ts <;> cases h
  refine ⟨.of_noBracket fun u hu => ?_, fun u hu => ?_⟩
  · obtain rfl := List.mem_singleton.1 hu
    simp [hkind]
  · obtain rfl := List.mem_singleton.1 hu
    exact hkind _ (.inl rfl)

/-- The range of a type that a name follows reaches from bracket to bracket. `front` is what was
read before, and `range` what it came to. -/
theorem splitType_spans {front : Tokens P} {range : Option (Extent P)} (ts : Tokens P)
    (hname : StartsName (splitType range ts).2)
    (hrange : ∀ e ∈ range, ∃ before run after, front = before ++ (run ++ after) ∧ IsRange run e ∧
      Balanced after) :
    ∀ e ∈ (splitType range ts).1, Spans (front ++ ts) e := by
  fun_induction splitType range ts generalizing front with
  | case1 range => exact hname.elim
  | case2 range t ts hopen ih =>
    rcases groupEnd_closed 0 t ts with
      ⟨inner, htokens, hclosing, hclosed, hstatement⟩ | hnil | ⟨u, rest, hrest, hu⟩
    · have hgroup := isRange_group hopen hclosing hclosed hstatement
      have hcut : front ++ t :: ts =
          front ++ t :: (inner ++ [(groupEnd 0 t ts).1]) ++ (groupEnd 0 t ts).2 := by
        simp [← htokens]
      rw [hcut]
      refine ih hname fun e he => ?_
      obtain rfl := Option.some.inj he
      -- the group adds to what was read, and the range reaches to its end
      rcases range with _ | e
      · exact ⟨front, _, [], by rw [List.append_nil], hgroup, .nil⟩
      · obtain ⟨before, run, after, rfl, hrun, hafter⟩ := hrange e rfl
        refine ⟨before, run ++ (after ++ t :: (inner ++ [(groupEnd 0 t ts).1])),
          [], by simp, ?_, .nil⟩
        refine ⟨?_, hrun.first, hclosing, hrun.balanced.append (hafter.append hgroup.balanced)⟩
        rw [← List.cons_append, ← List.append_assoc after, extent?_append_concat hrun.extent]
        rfl
    · rw [hnil, splitType] at hname
      exact hname.elim
    · -- no name follows a group that is cut short
      have hstop : isTypeName u.kind rest = false := by
        rcases rest with _ | ⟨v, rest⟩
        · rfl
        · simp [isTypeName, TokenKind.isTypeWord, hu]
      rw [hrest, splitType, if_neg (by simp [hu]), hstop,
        if_neg (by simp [hu, TokenKind.isQualifier, TokenKind.isNetType])]
        at hname
      have hidentifier : u.kind.isIdentifier = true := hname
      rw [hu] at hidentifier
      cases hidentifier
  | case3 range t ts hopen hword ih =>
    have hfront : front ++ t :: ts = front ++ [t] ++ ts := by
      rw [List.append_assoc, List.singleton_append]
    rw [hfront]
    refine ih hname fun e he => ?_
    obtain ⟨before, run, after, rfl, hrun, hafter⟩ := hrange e he
    exact ⟨before, run, after ++ [t], by simp, hrun, hafter.append (balanced_word hword)⟩
  | case4 range t ts hopen hword =>
    intro e he
    obtain ⟨before, run, after, rfl, hrun, -⟩ := hrange e he
    exact ⟨before, run, after ++ t :: ts, by simp, hrun⟩

/-- The ports of a clause are names among its tokens, and have the range of its type. -/
theorem portNames_finds (direction : Direction) (range : Option (Extent P)) (ts : Tokens P)
    {x : Finding P} (hx : x ∈ (portNames direction range ts).1) :
    StartsName ts ∧ ((∃ name ∈ ts, name.kind.isIdentifier = true ∧ x = .port direction name range) ∨
      ∃ r, x = .remark r) := by
  have hfound : ∀ (name : Lexeme P) (hasDefault : Bool) {ts : Tokens P}, name ∈ ts →
      name.kind.isIdentifier = true → x ∈ portFindings direction range name hasDefault →
        (∃ name ∈ ts, name.kind.isIdentifier = true ∧ x = .port direction name range) ∨
          ∃ r, x = .remark r := by
    intro name hasDefault ts hmem hname hx
    rcases List.mem_append.1 hx with hx | hx
    · split at hx
      · exact .inr ⟨_, List.mem_singleton.1 hx⟩
      · cases hx
    · exact .inl ⟨name, hmem, hname, List.mem_singleton.1 hx⟩
  fun_induction portNames direction range ts with
  | case1 => cases hx
  | case2 name ts hname found hmore more ih =>
    refine ⟨hname, ?_⟩
    rcases List.mem_append.1 hx with hx | hx
    · exact hfound name _ (List.mem_cons_self ..) hname hx
    · refine (ih hx).2.imp_left ?_
      rintro ⟨u, hu, hkind, hport⟩
      have hafter : u ∈ ts := (portTail_suffix ts).subset (List.mem_of_mem_drop hu)
      exact ⟨u, List.mem_cons_of_mem _ hafter, hkind, hport⟩
  | case3 name ts hname found hmore =>
    exact ⟨hname, hfound name _ (List.mem_cons_self ..) hname hx⟩
  | case4 => cases hx

theorem portClause_holds (direction : Direction) (keyword : Lexeme P) (ts : Tokens P)
    {x : Finding P} (hx : x ∈ (portClause direction keyword ts).1) : Holds ts x := by
  rw [portClause_eq] at hx
  simp only at hx
  split at hx
  · obtain rfl := List.mem_singleton.1 hx
    trivial
  · obtain ⟨hstart, ⟨name, hmem, hname, rfl⟩ | ⟨r, rfl⟩⟩ := portNames_finds direction _ _ hx
    · refine ⟨hname, (splitType_suffix none ts).subset hmem, ?_⟩
      rw [← List.nil_append ts]
      exact splitType_spans ts hstart (by simp)
    · trivial

/-! ## Bodies -/

/-- **What is found in a body stands in it.** -/
theorem readBody_holds (ts : Tokens P) {x : Finding P} (hx : x ∈ readBody ts) : Holds ts x := by
  fun_induction readBody ts with
  | case1 => cases hx
  | case2 t ts hkind ih =>
    rcases List.mem_append.1 hx with hx | hx
    · exact (parameterClause_holds t ts hx).suffix (List.suffix_cons t ts)
    · exact (ih hx).suffix ((parameterClause_suffix t ts).trans (List.suffix_cons t ts))
  | case3 t ts d hkind ih =>
    rcases List.mem_append.1 hx with hx | hx
    · exact (portClause_holds d t ts hx).suffix (List.suffix_cons t ts)
    · exact (ih hx).suffix ((portClause_suffix d t ts).trans (List.suffix_cons t ts))
  | case4 t ts hparameter hdirection ih => exact (ih hx).suffix (List.suffix_cons t ts)

/-- An outline's name is among the tokens it is read off, and its findings stand in a body among
them. -/
theorem exists_body_of_ok {o : Outline P} (ho : ofTokens ts = .ok o) :
    (o.name.kind.isIdentifier = true ∧ o.name ∈ ts) ∧ ∃ before body after,
      ts = before ++ (body ++ after) ∧ NoCloser body ∧ ∀ x ∈ o.findings, Holds body x := by
  obtain ⟨before, opener, body, closer, rest, rfl, -, -, hbody, -, hresult⟩ :=
    exists_module_of_ok ho
  obtain ⟨body, rfl, hname, hfindings⟩ := ofBody_eq_ok_iff.1 hresult
  refine ⟨⟨hname, by simp⟩, before ++ [opener, o.name], body, closer :: rest, by simp, ?_, ?_⟩
  · exact fun t ht => hbody t (List.mem_cons_of_mem _ ht)
  · intro x hx
    rw [hfindings] at hx
    exact readBody_holds body hx

end VerilogScaffold.Outline
