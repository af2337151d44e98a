import VerilogScaffold.Proofs.Reach

/-!
# Keywords that the scan does not come to

Where a clause steps over a bracket group or an expression, it steps over every token in it, a
keyword like any other. So a clause is never read, and nothing is said about it, if its keyword
stands in a bracket that a clause before it left open. Nowhere else does this happen:
`Outline.reached_or_leftOut` says that every keyword of a body is reached, or stands in such a
bracket.

Each reader passes over sheltered tokens only (`Passes`); the two places where keywords are in fact
passed over, `groupEnd` and `splitExpression`, are the two lemmas that count brackets. A keyword
that is reached and gives no diagnostic has declared something: `Extraction.keyword_accounted`.
-/

namespace VerilogScaffold

namespace Outline

open Header TokenKind

variable {P : Type} {body rest ts us : Tokens P} {t : Lexeme P}
  {opens closes : TokenKind → Bool} {depth : Nat}

/-! ## Open brackets -/

/-- Tokens among which no statement ends, and which close no more than `depth` brackets and those
they open. -/
structure StaysOpen (opens closes : TokenKind → Bool) (depth : Nat) (ts : Tokens P) : Prop where
  prefixes : ∀ before, before <+: ts → count closes before ≤ depth + count opens before
  statement : ∀ t ∈ ts, t.kind ≠ .semicolon

/-- Whether what follows some tokens stands in a bracket that they leave open: a square bracket, if
square brackets alone are counted, or any, if all are. -/
def InBracket (ts : Tokens P) : Prop :=
  ∃ front bracket inner, ts = front ++ bracket :: inner ∧
    (bracket.kind = .opening .square ∧
        StaysOpen (· == .opening .square) (· == .closing .square) 0 inner ∨
      bracket.kind.isOpening = true ∧ StaysOpen isOpening isClosing 0 inner)

theorem InBracket.append_left (h : InBracket ts) (us : Tokens P) : InBracket (us ++ ts) := by
  obtain ⟨front, bracket, inner, rfl, hopen⟩ := h
  exact ⟨us ++ front, bracket, inner, by rw [List.append_assoc], hopen⟩

theorem StaysOpen.nil : StaysOpen opens closes depth ([] : Tokens P) where
  prefixes before hbefore := by
    obtain rfl := List.prefix_nil.1 hbefore
    exact Nat.zero_le _
  statement := by simp

theorem StaysOpen.cons {d : Nat} (h : StaysOpen opens closes d ts) (ht : t.kind ≠ .semicolon)
    (hd : count closes [t] + d = depth + count opens [t]) :
    StaysOpen opens closes depth (t :: ts) := by
  refine ⟨fun before hbefore => ?_, List.forall_mem_cons.2 ⟨ht, h.statement⟩⟩
  rcases before with _ | ⟨u, before⟩
  · exact Nat.zero_le _
  · obtain ⟨rfl, hrest⟩ := List.cons_prefix_cons.1 hbefore
    have := h.prefixes before hrest
    rw [count_cons closes, count_cons opens]
    omega

/-! ## Groups -/

/-- Tokens in which each keyword has `depth` brackets or more open before it, and is not kept from
them by the end of a statement. -/
def KeepsOpen (opens closes : TokenKind → Bool) (depth : Nat) (ts : Tokens P) : Prop :=
  ∀ before t after, ts = before ++ t :: after → t.kind.opensClause = true →
    StaysOpen opens closes depth before

theorem KeepsOpen.cons {d : Nat} (h : KeepsOpen opens closes d ts) (ht : t.kind ≠ .semicolon)
    (hd : count closes [t] + d = depth + count opens [t]) :
    KeepsOpen opens closes depth (t :: ts) := by
  intro before u after hcut hu
  rcases before with _ | ⟨v, before⟩
  · exact .nil
  · obtain ⟨rfl, hrest⟩ := List.cons.inj hcut
    exact (h before u after hrest hu).cons ht hd

/-- A group passes over keywords only while one of its brackets is open. -/
theorem groupEnd_keepsOpen (depth : Nat) (last : Lexeme P) (ts : Tokens P) :
    ∃ inner, ts = inner ++ (groupEnd depth last ts).2 ∧
      KeepsOpen (· == .opening .square) (· == .closing .square) depth inner := by
  fun_induction groupEnd depth last ts with
  | case1 => exact ⟨[], rfl, fun before t after h => by simp at h⟩
  | case2 depth last t ts hkind ih =>
    obtain ⟨inner, htokens, hinner⟩ := ih
    refine ⟨t :: inner, congrArg (t :: ·) htokens, hinner.cons (by simp [hkind]) ?_⟩
    simp [count, hkind]
  | case3 last t ts hkind =>
    refine ⟨[t], rfl, fun before u after h _ => ?_⟩
    rcases before with _ | ⟨v, before⟩
    · exact .nil
    · simp at h
  | case4 last t ts hkind depth ih =>
    obtain ⟨inner, htokens, hinner⟩ := ih
    refine ⟨t :: inner, congrArg (t :: ·) htokens, hinner.cons (by simp [hkind]) ?_⟩
    simp [count, hkind, Nat.add_comm]
  | case5 depth last t ts hkind => exact ⟨[], rfl, fun before t after h => by simp at h⟩
  | case6 depth last t ts hopening hclosing hother ih =>
    obtain ⟨inner, htokens, hinner⟩ := ih
    refine ⟨t :: inner, congrArg (t :: ·) htokens, hinner.cons hother ?_⟩
    rw [count_cons_of_neg (by simpa using hclosing), count_cons_of_neg (by simpa using hopening),
      count_nil, count_nil, Nat.zero_add, Nat.add_zero]

/-! ## Expressions -/

/-- What it takes for an expression to go on over a token. -/
theorem depthAfter?_eq_some {kind : TokenKind} {d : Nat} (h : depthAfter? depth kind = some d) :
    kind ≠ .semicolon ∧ (kind.opensClause = true → depth ≠ 0) ∧
      (kind.isOpening = true ∧ kind.isClosing = false ∧ d = depth + 1 ∨
        kind.isOpening = false ∧ kind.isClosing = true ∧ depth = d + 1 ∨
        kind.isOpening = false ∧ kind.isClosing = false ∧ depth = d) := by
  cases kind with
  | opening b =>
    obtain rfl := Option.some.inj h
    exact ⟨by simp, fun hopens => (Bool.false_ne_true hopens).elim, .inl ⟨rfl, rfl, rfl⟩⟩
  | closing b =>
    rcases depth with _ | e
    · cases h
    · obtain rfl := Option.some.inj h
      exact ⟨by simp, fun _ => Nat.succ_ne_zero e, .inr (.inl ⟨rfl, rfl, rfl⟩)⟩
  | semicolon => cases h
  | comma =>
    rw [depthAfter?] at h
    split at h
    · cases h
    · exact ⟨by simp, fun _ => ‹_›, .inr (.inr ⟨rfl, rfl, Option.some.inj h⟩)⟩
  | keyword k =>
    have hsame : depth = d := by
      cases k <;> simp only [depthAfter?] at h <;> first | exact Option.some.inj h | grind
    refine ⟨by simp, fun hopens => ?_, .inr (.inr ⟨rfl, rfl, hsame⟩)⟩
    rintro rfl
    cases k with
    | parameter | direction => simp [depthAfter?] at h
    | _ => cases hopens
  | _ =>
    obtain rfl := Option.some.inj h
    exact ⟨by simp, fun hopens => (Bool.false_ne_true hopens).elim, .inr (.inr ⟨rfl, rfl, rfl⟩)⟩

/-- An expression passes over keywords only while a bracket is open: one of its own, or one of
`depth` before it. -/
theorem splitExpression_keepsOpen (depth : Nat) (ts : Tokens P)
    {before after : Tokens P} {t : Lexeme P}
    (hcut : (splitExpression depth ts).1 = before ++ t :: after) (ht : t.kind.opensClause = true) :
    InBracket before ∨ ∃ d, depth = d + 1 ∧ StaysOpen isOpening isClosing d before := by
  fun_induction splitExpression depth ts generalizing before with
  | case1 => simp at hcut
  | case2 depth u ts d hdepth ih =>
    obtain ⟨hsemicolon, hzero, hshape⟩ := depthAfter?_eq_some hdepth
    rcases before with _ | ⟨v, before⟩
    · obtain ⟨rfl, -⟩ := List.cons.inj hcut
      exact .inr ⟨depth - 1, by have := hzero ht; omega, .nil⟩
    · obtain ⟨rfl, hrest⟩ := List.cons.inj hcut
      rcases ih hrest with hin | ⟨e, rfl, hopen⟩
      · exact .inl (hin.append_left [u])
      · -- one bracket more is open behind `u` than `e` says
        rcases hshape with ⟨ho, hc, hd⟩ | ⟨ho, hc, rfl⟩ | ⟨ho, hc, rfl⟩
        · obtain rfl : e = depth := by omega
          rcases e with _ | e
          · exact .inl ⟨[], u, before, rfl, .inr ⟨ho, hopen⟩⟩
          · exact .inr ⟨e, rfl, hopen.cons hsemicolon (by simp [count, ho, hc])⟩
        · exact .inr ⟨e + 1, rfl, hopen.cons hsemicolon (by simp [count, ho, hc, Nat.add_comm])⟩
        · exact .inr ⟨e, rfl, hopen.cons hsemicolon (by simp [count, ho, hc])⟩
  | case3 => simp at hcut

/-! ## What each reader passes over -/

/-- Tokens each keyword of which stands in a bracket that the tokens before it leave open. -/
def Sheltered (ts : Tokens P) : Prop :=
  ∀ before t after, ts = before ++ t :: after → t.kind.opensClause = true → InBracket before

theorem Sheltered.append (h : Sheltered ts) (h' : Sheltered us) : Sheltered (ts ++ us) := by
  intro before t after hcut ht
  rcases List.append_eq_append_iff.1 hcut with ⟨more, rfl, hus⟩ | ⟨more, rfl, hus⟩
  · exact (h' more t after hus ht).append_left ts
  · rcases more with _ | ⟨u, more⟩
    · have hbefore := (h' [] t after hus.symm ht).append_left before
      rwa [List.append_nil] at hbefore
    · obtain ⟨rfl, -⟩ := List.cons.inj hus
      exact h before t more rfl ht

/-- Whether a reader passes from some tokens to others, over sheltered ones. -/
def Passes (ts rest : Tokens P) : Prop := ∃ passed, ts = passed ++ rest ∧ Sheltered passed

theorem Passes.refl (ts : Tokens P) :
    Passes ts ts := ⟨[], rfl, fun before t after h => by simp at h⟩

theorem Passes.trans (h : Passes ts us) (h' : Passes us rest) : Passes ts rest := by
  obtain ⟨passed, rfl, hpassed⟩ := h
  obtain ⟨passed', rfl, hpassed'⟩ := h'
  exact ⟨passed ++ passed', by rw [List.append_assoc], hpassed.append hpassed'⟩

theorem passes_cons (ht : t.kind.opensClause = false) (ts : Tokens P) : Passes (t :: ts) ts := by
  refine ⟨[t], rfl, fun before u after hcut hu => ?_⟩
  rcases before with _ | ⟨v, before⟩
  · obtain ⟨rfl, -⟩ := List.cons.inj hcut
    rw [ht] at hu
    cases hu
  · simp at hcut

theorem passes_group (ht : t.kind = .opening .square) (ts : Tokens P) :
    Passes (t :: ts) (groupEnd 0 t ts).2 := by
  obtain ⟨inner, htokens, hinner⟩ := groupEnd_keepsOpen 0 t ts
  refine ⟨t :: inner, congrArg (t :: ·) htokens, fun before u after hcut hu => ?_⟩
  rcases before with _ | ⟨v, before⟩
  · obtain ⟨rfl, -⟩ := List.cons.inj hcut
    rw [ht] at hu
    cases hu
  · obtain ⟨rfl, hrest⟩ := List.cons.inj hcut
    exact ⟨[], t, before, rfl, .inl ⟨ht, hinner before u after hrest hu⟩⟩

theorem passes_expression (ts : Tokens P) : Passes ts (splitExpression 0 ts).2 := by
  refine ⟨_, (splitExpression_append 0 ts).symm, fun before t after hcut ht => ?_⟩
  rcases splitExpression_keepsOpen 0 ts hcut ht with hin | ⟨d, hd, -⟩
  · exact hin
  · cases hd

theorem opensClause_of_isIdentifier {kind : TokenKind} (h : kind.isIdentifier = true) :
    kind.opensClause = false := by
  rcases eq_of_isIdentifier h with rfl | rfl <;> rfl

/-- No word of a type is a keyword that starts a clause. -/
theorem opensClause_of_word (h : (t.kind.isQualifier || isTypeName t.kind ts) = true) :
    t.kind.opensClause = false := by
  cases hkind : t.kind with
  | keyword k =>
    rw [hkind] at h
    cases k with
    | parameter => cases ts <;> cases h
    | direction d => cases ts <;> cases h
    | _ => rfl
  | _ => rfl

theorem splitType_passes (range : Option (Extent P)) (ts : Tokens P) :
    Passes ts (splitType range ts).2 := by
  fun_induction splitType range ts with
  | case1 => exact .refl _
  | case2 range t ts hopen ih => exact (passes_group hopen ts).trans ih
  | case3 range t ts hopen hword ih => exact (passes_cons (opensClause_of_word hword) ts).trans ih
  | case4 => exact .refl _

theorem skipGroups_passes (ts : Tokens P) : Passes ts (skipGroups ts) := by
  fun_induction skipGroups ts with
  | case1 => exact .refl _
  | case2 t ts hopen ih => exact (passes_group hopen ts).trans ih
  | case3 => exact .refl _

theorem parameterItem_passes (keyword : Lexeme P) (ts : Tokens P) :
    Passes ts (parameterItem keyword ts).2.1 := by
  rcases ts with _ | ⟨name, ts⟩
  · exact .refl _
  · by_cases hname : name.kind.isIdentifier = true
    · have hstep := passes_cons (opensClause_of_isIdentifier hname) ts
      rcases ts with _ | ⟨equals, ts⟩
      · simpa [parameterItem, hname] using hstep
      · by_cases hequals : equals.kind = .equals
        · have hvalue :=
            (passes_cons (t := equals) (by rw [hequals]; rfl) ts).trans (passes_expression ts)
          simpa [parameterItem, hname, hequals] using hstep.trans hvalue
        · simpa [parameterItem, hname, hequals] using hstep
    · simpa [parameterItem, hname] using Passes.refl _

/-- The comma between two items is passed over. -/
theorem passes_comma (h : continuesPorts ts = true) : Passes ts (ts.drop 1) := by
  rcases ts with _ | ⟨comma, _ | ⟨name, ts⟩⟩
  · cases h
  · cases h
  · have hcomma : comma.kind = .comma := by
      rw [continuesPorts, Bool.and_eq_true] at h
      exact beq_iff_eq.1 h.1
    exact passes_cons (by rw [hcomma]; rfl) _

/-- A clause of parameters goes on with a comma and a name. -/
theorem continuesPorts_of_parameterItem {keyword : Lexeme P}
    (h : (parameterItem keyword ts).2.2 = true) :
    continuesPorts (parameterItem keyword ts).2.1 = true := by
  cases hports : continuesPorts (parameterItem keyword ts).2.1 with
  | true => rfl
  | false =>
    have hfalse := continuesParameters_of_continuesPorts hports
    rcases ts with _ | ⟨name, _ | ⟨equals, ts⟩⟩
    · cases h
    · by_cases hname : name.kind.isIdentifier = true <;> simp [parameterItem, hname] at h
    · by_cases hname : name.kind.isIdentifier = true
      · by_cases hequals : equals.kind = .equals
        · simp only [parameterItem, hname, hequals, if_true] at h hfalse
          rw [h] at hfalse
          cases hfalse
        · simp [parameterItem, hname, hequals] at h
      · simp [parameterItem, hname] at h

theorem parameterClause_passes (keyword : Lexeme P) (ts : Tokens P) :
    Passes ts (parameterClause keyword ts).2 := by
  fun_induction parameterClause keyword ts with
  | case1 ts item hmore more ih =>
    exact (splitType_passes none ts).trans ((parameterItem_passes keyword _).trans
      ((passes_comma (continuesPorts_of_parameterItem hmore)).trans ih))
  | case2 ts item hmore => exact (splitType_passes none ts).trans (parameterItem_passes keyword _)

theorem portTail_passes (ts : Tokens P) : Passes ts (portTail ts).2 := by
  have hskip := skipGroups_passes ts
  unfold portTail
  generalize skipGroups ts = us at hskip
  rcases us with _ | ⟨t, rest⟩
  · exact hskip
  · by_cases hequals : t.kind = .equals
    · simp only [hequals, if_true]
      exact hskip.trans ((passes_cons (by rw [hequals]; rfl) rest).trans (passes_expression rest))
    · simpa only [hequals, if_false] using hskip

theorem portNames_passes (direction : Direction) (range : Option (Extent P)) (ts : Tokens P) :
    Passes ts (portNames direction range ts).2 := by
  fun_induction portNames direction range ts with
  | case1 => exact .refl _
  | case2 name ts hname found hmore more ih =>
    exact (passes_cons (opensClause_of_isIdentifier hname) ts).trans
      ((portTail_passes ts).trans ((passes_comma hmore).trans ih))
  | case3 name ts hname found hmore =>
    exact (passes_cons (opensClause_of_isIdentifier hname) ts).trans (portTail_passes ts)
  | case4 => exact .refl _

theorem portClause_passes (direction : Direction) (keyword : Lexeme P) (ts : Tokens P) :
    Passes ts (portClause direction keyword ts).2 := by
  rw [portClause_eq]
  exact (splitType_passes none ts).trans (portNames_passes direction _ _)

/-! ## Bodies -/

/-- The tokens that a clause leaves. -/
def afterClause (head : Lexeme P) (ts : Tokens P) : Tokens P :=
  match head.kind with
  | .keyword .parameter => (parameterClause head ts).2
  | .keyword (.direction d) => (portClause d head ts).2
  | _ => ts

/-- Whether the scan leaves a token of a body out: it comes to a clause that passes over the token,
and the token stands in a bracket that is open behind the keyword of that clause. -/
def LeftOut (body before : Tokens P) (t : Lexeme P) (after : Tokens P) : Prop :=
  ∃ front head inner found, before = front ++ head :: inner ∧ head.kind.opensClause = true ∧
    Reaches body found (head :: (inner ++ t :: after)) ∧
    afterClause head (inner ++ t :: after) <:+ after ∧ InBracket inner

/-- Nothing is left out behind tokens without an opening bracket. -/
theorem not_leftOut {before after : Tokens P} (h : ∀ t ∈ before, t.kind.isOpening = false) :
    ¬ LeftOut body before t after := by
  rintro ⟨front, head, inner, found, rfl, -, -, -, front', bracket, inner', rfl, hopen⟩
  have hbracket := h bracket (by simp)
  rcases hopen with ⟨hkind, -⟩ | ⟨hkind, -⟩
  · rw [hkind] at hbracket
    cases hbracket
  · rw [hbracket] at hkind
    cases hkind

/-- A keyword behind one step of the scan. -/
theorem reached_or_leftOut_of_step {head : Lexeme P} (hhead : head.kind.opensClause = true)
    {found : List (Finding P)} (hstep : Reaches (head :: ts) found (afterClause head ts))
    (hpasses : Passes ts (afterClause head ts)) {before after : Tokens P}
    (hcut : ts = before ++ t :: after) (ht : t.kind.opensClause = true)
    (hlater : ∀ front, afterClause head ts = front ++ t :: after →
      (∃ found, Reaches (afterClause head ts) found (t :: after)) ∨
        LeftOut (afterClause head ts) front t after) :
    (∃ found, Reaches (head :: ts) found (t :: after)) ∨ LeftOut (head :: ts)
      (head :: before) t after := by
  obtain ⟨passed, hpassed, hsheltered⟩ := hpasses
  have hcut' := hcut
  rw [hpassed] at hcut'
  rcases List.append_eq_append_iff.1 hcut' with ⟨more, rfl, hrest⟩ | ⟨more, rfl, hmore⟩
  · rcases hlater more hrest with
      ⟨found', hreach⟩ | ⟨front, head', inner, found', rfl, hhead', hreach, hover, hin⟩
    · exact .inl ⟨_, hstep.trans hreach⟩
    · exact .inr ⟨head :: (passed ++ front), head', inner,
        _, by simp, hhead', hstep.trans hreach, hover, hin⟩
  · rcases more with _ | ⟨u, more⟩
    · -- the keyword is the first token behind the clause
      rcases hlater [] hmore.symm with ⟨found', hreach⟩ | ⟨front, head', inner, found', hfront, -⟩
      · exact .inl ⟨_, hstep.trans hreach⟩
      · simp at hfront
    · obtain ⟨rfl, hafter⟩ := List.cons.inj hmore
      refine .inr ⟨[], head, before, [], rfl, hhead, ?_, ?_, hsheltered before t more rfl ht⟩
      · rw [← hcut]
        exact .start
      · rw [← hcut, hafter]
        exact List.suffix_append more _

/-- **Every keyword of a body is reached, or left out in an open bracket.** -/
theorem reached_or_leftOut (body : Tokens P) {before after : Tokens P} {t : Lexeme P}
    (hcut : body = before ++ t :: after) (ht : t.kind.opensClause = true) :
    (∃ found, Reaches body found (t :: after)) ∨ LeftOut body before t after := by
  fun_induction readBody body generalizing before with
  | case1 => simp at hcut
  | case2 u ts hkind ih =>
    rcases before with _ | ⟨v, before⟩
    · obtain ⟨rfl, rfl⟩ := List.cons.inj hcut
      exact .inl ⟨[], .start⟩
    · obtain ⟨rfl, hts⟩ := List.cons.inj hcut
      have hclause : afterClause u ts = (parameterClause u ts).2 := by rw [afterClause, hkind]
      refine reached_or_leftOut_of_step (by rw [hkind]; rfl)
        (hclause ▸ Reaches.start.parameter hkind)
        (hclause ▸ parameterClause_passes u ts) hts ht ?_
      rw [hclause]
      exact fun front hfront => ih hfront
  | case3 u ts d hkind ih =>
    rcases before with _ | ⟨v, before⟩
    · obtain ⟨rfl, rfl⟩ := List.cons.inj hcut
      exact .inl ⟨[], .start⟩
    · obtain ⟨rfl, hts⟩ := List.cons.inj hcut
      have hclause : afterClause u ts = (portClause d u ts).2 := by rw [afterClause, hkind]
      refine reached_or_leftOut_of_step (by rw [hkind]; rfl) (hclause ▸ Reaches.start.port hkind)
        (hclause ▸ portClause_passes d u ts) hts ht ?_
      rw [hclause]
      exact fun front hfront => ih hfront
  | case4 u ts hparameter hdirection ih =>
    have hu : u.kind.opensClause = false := by
      cases hkind : u.kind with
      | keyword k =>
        cases k with
        | parameter => exact absurd hkind hparameter
        | direction d => exact absurd hkind (hdirection d)
        | _ => rfl
      | _ => rfl
    rcases before with _ | ⟨v, before⟩
    · obtain ⟨rfl, -⟩ := List.cons.inj hcut
      rw [hu] at ht
      cases ht
    · obtain ⟨rfl, hts⟩ := List.cons.inj hcut
      have hstep : Reaches (u :: ts) [] ts := Reaches.start.other hu
      rcases ih hts with ⟨found, hreach⟩ |
        ⟨front, head, inner, found, rfl, hhead, hreach, hover, hin⟩
      · exact .inl ⟨_, hstep.trans hreach⟩
      · exact .inr ⟨u :: front, head, inner, _, rfl, hhead, hstep.trans hreach, hover, hin⟩

/-! ## What a clause finds -/

/-- A clause of parameters that remarks on nothing declares one. -/
theorem exists_parameter_of_parameterClause (keyword : Lexeme P) (ts : Tokens P)
    (h : ∀ r, .remark r ∉ (parameterClause keyword ts).1) :
    ∃ name value, .parameter name value ∈ (parameterClause keyword ts).1 := by
  have hitem : (parameterItem keyword (splitType none ts).2).1 ∈
      (parameterClause keyword ts).1 := by
    rw [parameterClause]
    split <;> exact List.mem_cons_self ..
  rcases hkind : (parameterItem keyword (splitType none ts).2).1 with ⟨name, value⟩ |
    ⟨d, name, range⟩ | r
  · exact ⟨name, value, hkind ▸ hitem⟩
  · -- a parameter is read as one, or remarked on
    generalize (splitType none ts).2 = us at hkind
    rcases us with _ | ⟨u, _ | ⟨v, us⟩⟩
    · cases hkind
    · by_cases hu : u.kind.isIdentifier = true <;> simp [parameterItem, hu] at hkind
    · by_cases hu : u.kind.isIdentifier = true
      · by_cases hv : v.kind = .equals
        · simp only [parameterItem, hu, hv, if_true, parameterFinding] at hkind
          split at hkind <;> cases hkind
        · simp [parameterItem, hu, hv] at hkind
      · simp [parameterItem, hu] at hkind
  · exact absurd (hkind ▸ hitem) (h r)

/-- A clause of ports that remarks on nothing declares one of its direction. -/
theorem exists_port_of_portClause (direction : Direction) (keyword : Lexeme P) (ts : Tokens P)
    (h : ∀ r, .remark r ∉ (portClause direction keyword ts).1) :
    ∃ name range, .port direction name range ∈ (portClause direction keyword ts).1 := by
  rw [portClause_eq] at h ⊢
  split at h
  · exact absurd (List.mem_singleton.2 rfl) (h (.noPorts direction keyword _))
  · rename_i hfound
    rw [if_neg hfound]
    obtain ⟨x, hx⟩ := List.exists_mem_of_ne_nil _ (by simpa using hfound)
    rcases (portNames_finds direction _ _ hx).2 with ⟨name, -, -, rfl⟩ | ⟨r, rfl⟩
    · exact ⟨name, _, hx⟩
    · exact absurd hx (h r)

end Outline

namespace Extraction

open Outline

variable {source : String} {s : Signature} {body before after : Tokens Span} {t : Token}

/-- Nothing is remarked on where no diagnostic is given. -/
theorem remark_notMem (ha : Addressable source) (hx : ofSource source = ⟨.ok s, []⟩)
    (hbody : HasBody (keptTokens source) body) (r : Remark Span) : .remark r ∉ readBody body := by
  obtain ⟨o, ho, -⟩ := exists_outline_of_result ha (congrArg Extraction.result hx)
  have h := ofSource?_eq ha
  rw [hx, ofSource?_eq_ofLexing?] at h
  rw [keptTokens] at ho
  simp only [ofLexing?_eq, ho, Option.bind_eq_bind] at h
  obtain ⟨_, -, h⟩ := Option.bind_eq_some_iff.1 h
  obtain ⟨_, -, h⟩ := Option.bind_eq_some_iff.1 h
  obtain ⟨onRest, honRest, h⟩ := Option.bind_eq_some_iff.1 h
  obtain ⟨-, rfl⟩ := List.append_eq_nil_iff.1 (congrArg Extraction.diagnostics (Option.some.inj h))
  intro hr
  rw [← hbody.findings_eq ho] at hr
  have hremark : r ∈ o.remarks := List.mem_filterMap.2 ⟨_, hr, rfl⟩
  rw [remarkDiagnostics?_eq] at honRest
  rcases hremarks : o.remarks with _ | ⟨r', rs⟩
  · rw [hremarks] at hremark
    cases hremark
  · rw [hremarks, List.mapM_cons] at honRest
    obtain ⟨d, -, honRest⟩ := Option.bind_eq_some_iff.1 honRest
    obtain ⟨ds, -, honRest⟩ := Option.bind_eq_some_iff.1 honRest
    cases honRest

/-- A signature holds what its body declares. -/
theorem mem_of_mem_readBody (ha : Addressable source) (hs : (ofSource source).result = .ok s)
    (hbody : HasBody (keptTokens source) body) :
    (∀ d name range, .port d name range ∈ readBody body →
      ∃ p ∈ s.ports d, Signature.portAt? source (name, range) = some p) ∧
    ∀ name value, .parameter name value ∈ readBody body →
      ∃ p ∈ s.parameters, Signature.parameterAt? source (name, value) = some p := by
  obtain ⟨o, ho, hparameters, hports⟩ := exists_outline_of_result ha hs
  rw [hbody.findings_eq ho] at hparameters hports
  refine ⟨fun d name range hmem => ?_, fun name value hmem => ?_⟩
  · exact exists_mem_of_mapM_eq_some (hports d) (List.mem_filterMap.2 ⟨_, hmem, if_pos rfl⟩)
  · exact exists_mem_of_mapM_eq_some hparameters (List.mem_filterMap.2 ⟨_, hmem, rfl⟩)

/-- **Nothing is dropped silently outside brackets.** Where extraction gives no diagnostic, each
keyword of the body that starts a clause of ports or of parameters either stands in a bracket that
an earlier clause left open, or is reached by the scan and declares something of its kind, which the
signature holds. -/
theorem keyword_accounted (ha : Addressable source) (hx : ofSource source = ⟨.ok s, []⟩)
    (hbody : HasBody (keptTokens source) body) (hcut : body = before ++ t :: after) :
    (∀ d, t.kind = .keyword (.direction d) → LeftOut body before t after ∨
      ∃ found, Reaches body found (t :: after) ∧ ∃ name range, ∃ p ∈ s.ports d,
        .port d name range ∈ (portClause d t after).1 ∧
        Signature.portAt? source (name, range) = some p) ∧
    (t.kind = .keyword .parameter → LeftOut body before t after ∨
      ∃ found, Reaches body found (t :: after) ∧ ∃ name value, ∃ p ∈ s.parameters,
        .parameter name value ∈ (parameterClause t after).1 ∧
        Signature.parameterAt? source (name, value) = some p) := by
  obtain ⟨hheld, hheld'⟩ := mem_of_mem_readBody ha (congrArg Extraction.result hx) hbody
  have hsilent := remark_notMem ha hx hbody
  refine ⟨fun d ht => ?_, fun ht => ?_⟩
  · rcases reached_or_leftOut body hcut (by rw [ht]; rfl) with ⟨found, hreach⟩ | hout
    · -- what the clause finds is in the body, so it remarks on nothing
      have hall : ∀ x ∈ (portClause d t after).1, x ∈ readBody body := fun x hx => by
        rw [(hreach.port ht).readBody_eq]
        exact List.mem_append_left _ (List.mem_append_right _ hx)
      obtain ⟨name, range, hport⟩ :=
        exists_port_of_portClause d t after fun r hr => hsilent r (hall _ hr)
      obtain ⟨p, hp, hlookup⟩ := hheld d name range (hall _ hport)
      exact .inr ⟨found, hreach, name, range, p, hp, hport, hlookup⟩
    · exact .inl hout
  · rcases reached_or_leftOut body hcut (by rw [ht]; rfl) with ⟨found, hreach⟩ | hout
    · have hall : ∀ x ∈ (parameterClause t after).1, x ∈ readBody body := fun x hx => by
        rw [(hreach.parameter ht).readBody_eq]
        exact List.mem_append_left _ (List.mem_append_right _ hx)
      obtain ⟨name, value, hparameter⟩ :=
        exists_parameter_of_parameterClause t after fun r hr => hsilent r (hall _ hr)
      obtain ⟨p, hp, hlookup⟩ := hheld' name value (hall _ hparameter)
      exact .inr ⟨found, hreach, name, value, p, hp, hparameter, hlookup⟩
    · exact .inl hout

/-- The second keyword of a module with two ports: no bracket stands before it, so a port is
found. -/
theorem keyword_accounted_second :
    ofSource "module m; input a; output b; endmodule" =
        ⟨.ok ⟨"m", [], [⟨"a", ""⟩], [⟨"b", ""⟩], []⟩, []⟩ ∧
      ∃ name range, Signature.portAt? "module m; input a; output b; endmodule" (name, range) =
        some ⟨"b", ""⟩ := by
  have hx : ofSource "module m; input a; output b; endmodule" =
      ⟨.ok ⟨"m", [], [⟨"a", ""⟩], [⟨"b", ""⟩], []⟩, []⟩ := by
    rw [ofSource, ofSource?_eq_ofLexing?]
    cbv
  have hbody : HasBody (keptTokens "module m; input a; output b; endmodule")
      ([⟨.semicolon, ⟨8, 9⟩⟩, ⟨.keyword (.direction .input), ⟨10, 15⟩⟩, ⟨.identifier, ⟨16, 17⟩⟩,
        ⟨.semicolon, ⟨17, 18⟩⟩] ++ ⟨.keyword (.direction .output), ⟨19, 25⟩⟩ ::
          [⟨.identifier, ⟨26, 27⟩⟩, ⟨.semicolon, ⟨27, 28⟩⟩]) :=
    ⟨[], ⟨.keyword .moduleOpen, ⟨0, 6⟩⟩, ⟨.identifier, ⟨7, 8⟩⟩, ⟨.keyword .moduleClose, ⟨29, 38⟩⟩,
      [⟨.eof, ⟨38, 38⟩⟩], by cbv, by simp [NoOpener], rfl, by simp [NoCloser], rfl⟩
  rcases (keyword_accounted (by decide) hx hbody rfl).1 .output rfl with
    hout | ⟨found, -, name, range, p, hp, -, hlookup⟩
  · exact absurd hout (not_leftOut (by decide))
  · obtain rfl := List.mem_singleton.1 hp
    exact ⟨hx, name, range, hlookup⟩

/-- In a bracket that is never closed, keywords are dropped, and nothing is said. -/
theorem ofSource_openDimension :
    ofSource "module m(input a [0:3, input b, output c); endmodule" =
      ⟨.ok ⟨"m", [], [⟨"a", ""⟩], [], []⟩, []⟩ := by
  rw [ofSource, ofSource?_eq_ofLexing?]
  cbv

end Extraction

end VerilogScaffold
