import VerilogScaffold.Proofs.Header
import VerilogScaffold.Proofs.Scan

/-!
# Reading headers

Every reader takes exactly its part of a header, whatever follows, as long as what follows cannot be
taken for more of the part. The conditions on what follows are `Delimited`, for a value or the end
of a name, and `EndsClause`, for a clause; each is met where the grammar puts something behind the
part.
-/

namespace VerilogScaffold

variable {Place : Type}

namespace Header

open Outline

/-! ## Counting brackets -/

section Closed

variable {opens closes : TokenKind → Bool} {depth : Nat} {t : Lexeme Place} {ts : Tokens Place}

theorem count_cons_of_pos {p : TokenKind → Bool} (h : p t.kind = true) (ts : Tokens Place) :
    count p (t :: ts) = count p ts + 1 :=
  List.countP_cons_of_pos h

theorem count_cons_of_neg {p : TokenKind → Bool} (h : p t.kind = false) (ts : Tokens Place) :
    count p (t :: ts) = count p ts :=
  List.countP_cons_of_neg (by simp [h])

theorem count_cons (p : TokenKind → Bool) (t : Lexeme Place) (ts : Tokens Place) :
    count p (t :: ts) = count p [t] + count p ts := by
  rw [← List.singleton_append, count, List.countP_append, count, count]

@[simp] theorem count_nil (p : TokenKind → Bool) : count p ([] : Tokens Place) = 0 := rfl

theorem Closed.depth_eq_zero (h : Closed opens closes depth ([] : Tokens Place)) : depth = 0 :=
  h.whole.symm

theorem Closed.of_opening (h : Closed opens closes depth (t :: ts)) (hopens : opens t.kind = true)
    (hcloses : closes t.kind = false) : Closed opens closes (depth + 1) ts where
  prefixes before hbefore := by
    have := h.prefixes (t :: before) (List.cons_prefix_cons.2 ⟨rfl, hbefore⟩)
    rw [count_cons_of_neg hcloses, count_cons_of_pos hopens] at this
    omega
  whole := by
    have := h.whole
    rw [count_cons_of_neg hcloses, count_cons_of_pos hopens] at this
    omega

theorem Closed.of_closing (h : Closed opens closes depth (t :: ts)) (hopens : opens t.kind = false)
    (hcloses : closes t.kind = true) : ∃ d, depth = d + 1 ∧ Closed opens closes d ts := by
  have hpos := h.prefixes [t] (List.cons_prefix_cons.2 ⟨rfl, List.nil_prefix⟩)
  rw [count_cons_of_pos hcloses, count_cons_of_neg hopens, count_nil, count_nil] at hpos
  obtain ⟨d, rfl⟩ : ∃ d, depth = d + 1 := ⟨depth - 1, by omega⟩
  refine ⟨d, rfl, fun before hbefore => ?_, ?_⟩
  · have := h.prefixes (t :: before) (List.cons_prefix_cons.2 ⟨rfl, hbefore⟩)
    rw [count_cons_of_pos hcloses, count_cons_of_neg hopens] at this
    omega
  · have := h.whole
    rw [count_cons_of_pos hcloses, count_cons_of_neg hopens] at this
    omega

theorem Closed.of_other (h : Closed opens closes depth (t :: ts)) (hopens : opens t.kind = false)
    (hcloses : closes t.kind = false) : Closed opens closes depth ts where
  prefixes before hbefore := by
    have := h.prefixes (t :: before) (List.cons_prefix_cons.2 ⟨rfl, hbefore⟩)
    rwa [count_cons_of_neg hcloses, count_cons_of_neg hopens] at this
  whole := by
    have := h.whole
    rwa [count_cons_of_neg hcloses, count_cons_of_neg hopens] at this

theorem Closed.nil : Closed opens closes 0 ([] : Tokens Place) where
  prefixes before hbefore := by
    obtain rfl := List.prefix_nil.1 hbefore
    exact Nat.le_refl _
  whole := rfl

/-- What one more token in front asks of the depth before it is asked of every beginning. -/
theorem Closed.cons {d : Nat} (h : Closed opens closes d ts)
    (hd : count closes [t] + d = depth + count opens [t])
    (hle : count closes [t] ≤ depth + count opens [t]) :
    Closed opens closes depth (t :: ts) := by
  refine ⟨fun before hbefore => ?_, ?_⟩
  · rcases before with _ | ⟨u, before⟩
    · exact Nat.zero_le _
    · obtain ⟨rfl, hrest⟩ := List.cons_prefix_cons.1 hbefore
      have := h.prefixes before hrest
      rw [count_cons closes, count_cons opens]
      omega
  · have := h.whole
    rw [count_cons closes, count_cons opens]
    omega

theorem Closed.cons_opening (h : Closed opens closes (depth + 1) ts) (hopens : opens t.kind = true)
    (hcloses : closes t.kind = false) : Closed opens closes depth (t :: ts) := by
  have hc : count closes [t] = 0 := count_cons_of_neg hcloses []
  have ho : count opens [t] = 1 := count_cons_of_pos hopens []
  exact h.cons (by omega) (by omega)

theorem Closed.cons_closing (h : Closed opens closes depth ts) (hopens : opens t.kind = false)
    (hcloses : closes t.kind = true) : Closed opens closes (depth + 1) (t :: ts) := by
  have hc : count closes [t] = 1 := count_cons_of_pos hcloses []
  have ho : count opens [t] = 0 := count_cons_of_neg hopens []
  exact h.cons (by omega) (by omega)

theorem Closed.cons_other (h : Closed opens closes depth ts) (hopens : opens t.kind = false)
    (hcloses : closes t.kind = false) : Closed opens closes depth (t :: ts) := by
  have hc : count closes [t] = 0 := count_cons_of_neg hcloses []
  have ho : count opens [t] = 0 := count_cons_of_neg hopens []
  exact h.cons (by omega) (by omega)

/-- Closed tokens behind closed tokens. -/
theorem Closed.append {us : Tokens Place} (h : Closed opens closes depth ts)
    (h' : Closed opens closes 0 us) : Closed opens closes depth (ts ++ us) := by
  have happend : ∀ (p : TokenKind → Bool) (vs : Tokens Place),
      count p (ts ++ vs) = count p ts + count p vs :=
    fun p vs => List.countP_append
  have hwhole := h.whole
  refine ⟨fun before hbefore => ?_, ?_⟩
  · obtain ⟨rest, hrest⟩ := hbefore
    rcases List.append_eq_append_iff.1 hrest with ⟨more, rfl, -⟩ | ⟨more, rfl, hus⟩
    · exact h.prefixes before (List.prefix_append _ _)
    · have := h'.prefixes more ⟨rest, hus.symm⟩
      rw [happend, happend]
      omega
  · have := h'.whole
    rw [happend, happend]
    omega

theorem Enclosed.tail (h : Enclosed (t :: ts)) : Enclosed ts :=
  fun u hu => h u (List.mem_cons_of_mem _ hu)

/-- Separators are looked for behind the first token at the depth that it leaves. -/
theorem Joined.tail (h : Joined depth (t :: ts)) {d : Nat}
    (hd : count TokenKind.isClosing [t] + d = depth + count TokenKind.isOpening [t]) :
    Joined d ts := by
  intro before u hbefore hcount
  refine h (t :: before) u (List.cons_prefix_cons.2 ⟨rfl, hbefore⟩) ?_
  rw [count_cons TokenKind.isClosing, count_cons TokenKind.isOpening]
  omega

end Closed

/-! ## Groups and values -/

/-- Tokens that close `depth + 1` brackets with the one behind them end where that one stands. -/
theorem groupEnd_append {depth : Nat} {inner : Tokens Place} {closing : Lexeme Place}
    (hclosed : Closed (· == .opening .square) (· == .closing .square) depth inner)
    (henclosed : Enclosed inner) (hclosing : closing.kind = .closing .square) (last : Lexeme Place)
    (rest : Tokens Place) : groupEnd depth last (inner ++ closing :: rest) = (closing, rest) := by
  induction inner generalizing depth last with
  | nil =>
    obtain rfl := hclosed.depth_eq_zero
    simp [groupEnd, hclosing]
  | cons t ts ih =>
    by_cases hopening : t.kind = .opening .square
    · have hclosed' := hclosed.of_opening (by simp [hopening]) (by simp [hopening])
      simpa [groupEnd, hopening] using ih hclosed' henclosed.tail t
    · by_cases hclosing' : t.kind = .closing .square
      · obtain ⟨d, rfl, hclosed'⟩ := hclosed.of_closing (by simp [hclosing']) (by simp [hclosing'])
        simpa [groupEnd, hclosing'] using ih hclosed' henclosed.tail t
      · -- any other token is stepped over, and a semicolon is not among them
        have hclosed' := hclosed.of_other (by simpa using hopening) (by simpa using hclosing')
        have hsemicolon := (henclosed t (List.mem_cons_self ..)).1
        rw [List.cons_append, groupEnd.eq_def]
        simp only [ih hclosed' henclosed.tail t]

theorem Group.groupEnd_append (g : Group Place) (rest : Tokens Place) :
    groupEnd 0 g.opening.1 (g.inner ++ g.closing.1 :: rest) = (g.closing.1, rest) :=
  Header.groupEnd_append g.closed g.enclosed g.closing.2 g.opening.1 rest

/-- What stands behind a value, and behind the last name of a clause. -/
def Delimited (ts : Tokens Place) : Prop :=
  ∃ t rest, ts = t :: rest ∧ (t.kind = .comma ∨ t.kind = .closing .paren ∨ t.kind = .semicolon)

theorem depthAfter?_zero_of_delimited {kind : TokenKind}
    (h : kind = .comma ∨ kind = .closing .paren ∨ kind = .semicolon) :
    depthAfter? 0 kind = none := by
  rcases h with rfl | rfl | rfl <;> rfl

theorem depthAfter?_of_isOpening {kind : TokenKind} (h : kind.isOpening = true) (depth : Nat) :
    depthAfter? depth kind = some (depth + 1) := by
  cases kind with
  | opening b => rfl
  | _ => cases h

theorem depthAfter?_of_isClosing {kind : TokenKind} (h : kind.isClosing = true) (depth : Nat) :
    depthAfter? (depth + 1) kind = some depth := by
  cases kind with
  | closing b => rfl
  | _ => cases h

/-- A token that is no bracket and ends no statement leaves the depth as it is, unless it
separates. -/
theorem depthAfter?_of_joined {kind : TokenKind} {depth : Nat} (hopening : kind.isOpening = false)
    (hclosing : kind.isClosing = false) (hsemicolon : kind ≠ .semicolon)
    (hjoined : depth = 0 → kind.isSeparator = false) : depthAfter? depth kind = some depth := by
  rcases depth with _ | depth
  · have hseparator := hjoined rfl
    cases kind with
    | opening b => cases hopening
    | closing b => cases hclosing
    | semicolon => exact absurd rfl hsemicolon
    | comma => cases hseparator
    | keyword k => cases k <;> first | rfl | cases hseparator
    | _ => rfl
  · cases kind with
    | opening b => cases hopening
    | closing b => cases hclosing
    | semicolon => exact absurd rfl hsemicolon
    | keyword k => cases k <;> rfl
    | _ => rfl

/-- An expression goes on over the first token of a value, and the rest of the value goes on from
the depth that it leaves. -/
theorem exists_depthAfter? {depth : Nat} {t : Lexeme Place} {ts : Tokens Place}
    (hclosed : Closed TokenKind.isOpening TokenKind.isClosing depth (t :: ts))
    (henclosed : Enclosed (t :: ts)) (hjoined : Joined depth (t :: ts)) :
    ∃ d, depthAfter? depth t.kind = some d ∧
      Closed TokenKind.isOpening TokenKind.isClosing d ts ∧ Joined d ts := by
  by_cases hopening : t.kind.isOpening = true
  · have hclosing : t.kind.isClosing = false := by
      cases hkind : t.kind <;> simp_all [TokenKind.isOpening, TokenKind.isClosing]
    refine ⟨depth + 1, depthAfter?_of_isOpening hopening depth,
      hclosed.of_opening hopening hclosing, hjoined.tail ?_⟩
    rw [count_cons_of_neg hclosing, count_cons_of_pos hopening, count_nil, count_nil]
    omega
  · rw [Bool.not_eq_true] at hopening
    by_cases hclosing : t.kind.isClosing = true
    · obtain ⟨d, rfl, hclosed'⟩ := hclosed.of_closing hopening hclosing
      refine ⟨d, depthAfter?_of_isClosing hclosing d, hclosed', hjoined.tail ?_⟩
      rw [count_cons_of_pos hclosing, count_cons_of_neg hopening, count_nil, count_nil]
      omega
    · rw [Bool.not_eq_true] at hclosing
      -- no bracket: only a separator could end the value here, and only at depth zero
      have hseparator : depth = 0 → t.kind.isSeparator = false := by
        rintro rfl
        exact hjoined [] t (List.cons_prefix_cons.2 ⟨rfl, List.nil_prefix⟩) rfl
      refine ⟨depth, depthAfter?_of_joined hopening hclosing (henclosed t (List.mem_cons_self ..)).1
        hseparator, hclosed.of_other hopening hclosing, hjoined.tail ?_⟩
      rw [count_cons_of_neg hclosing, count_cons_of_neg hopening, count_nil, count_nil]
      omega

theorem splitExpression_append {depth : Nat} {ts rest : Tokens Place}
    (hclosed : Closed TokenKind.isOpening TokenKind.isClosing depth ts) (henclosed : Enclosed ts)
    (hjoined : Joined depth ts) (hrest : Delimited rest) :
    splitExpression depth (ts ++ rest) = (ts, rest) := by
  induction ts generalizing depth with
  | nil =>
    obtain rfl := hclosed.depth_eq_zero
    obtain ⟨t, rest, rfl, ht⟩ := hrest
    rw [List.nil_append, splitExpression, depthAfter?_zero_of_delimited ht]
  | cons t ts ih =>
    obtain ⟨d, hd, hclosed', hjoined'⟩ := exists_depthAfter? hclosed henclosed hjoined
    rw [List.cons_append, splitExpression, hd]
    simp only [ih hclosed' henclosed.tail hjoined']

theorem Value.splitExpression_append (v : Value Place) {rest : Tokens Place}
    (hrest : Delimited rest) :
    splitExpression 0 (v.tokens ++ rest) = (v.tokens, rest) :=
  Header.splitExpression_append v.closed v.enclosed v.joined hrest

theorem Value.extent?_eq (v : Value Place) : extent? v.tokens = some v.extent := by
  rcases v with ⟨_ | ⟨t, ts⟩, hne, -, -, -⟩
  · exact absurd rfl hne
  · simp [extent?, extent, List.getLast_eq_getLastD]

/-! ## Types -/

/-- The range of a type of which `found` was read before. -/
def rangeFrom (found : Option (Extent Place)) (groups : List (Group Place)) :
    Option (Extent Place) :=
  match groups with
  | [] => found
  | g :: gs => some (widen found g.opening.1 (gs.getLastD g).closing.1)

theorem rangeFrom_widen (found : Option (Extent Place)) (g : Group Place)
    (gs : List (Group Place)) :
    rangeFrom (some (widen found g.opening.1 g.closing.1)) gs = rangeFrom found (g :: gs) := by
  cases gs with
  | nil => rfl
  | cons g' gs => rw [rangeFrom, rangeFrom, List.getLastD_cons]; rfl

theorem rangeFrom_none (type : List (TypePart Place)) :
    rangeFrom none (type.filterMap TypePart.group?) = range type := by
  rw [range]
  rcases type.filterMap TypePart.group? with _ | ⟨g, gs⟩ <;> rfl

theorem Leads.tail {part : TypePart Place} {type : List (TypePart Place)} {name : Name Place}
    (h : Leads (part :: type) name) : Leads type name :=
  fun before word after htype => h (part :: before) word after (by rw [htype, List.cons_append])

/-- A word that leads is taken for the name of a type. -/
theorem Leads.isTypeName {word : {t : Lexeme Place // t.kind.isTypeWord = true}}
    {type : List (TypePart Place)} {name : Name Place} (h : Leads (.word word :: type) name)
    (rest : Tokens Place) :
    isTypeName word.1.kind (type.flatMap TypePart.tokens ++ name.1 :: rest) = true := by
  obtain ⟨next, after, hnext, hkind⟩ := h [] word type rfl
  have hrest : type.flatMap TypePart.tokens ++ name.1 :: rest = next :: (after ++ rest) := by
    rw [← List.singleton_append, ← List.append_assoc, hnext, List.cons_append]
  rw [hrest, Outline.isTypeName, word.2, Bool.true_and, Bool.or_eq_true]
  exact hkind

/-- What stands behind a name: nothing that would make it the name of a type. -/
def EndsName (ts : Tokens Place) : Prop :=
  ∃ t rest, ts = t :: rest ∧ t.kind.isIdentifier = false ∧ t.kind.isQualifier = false

/-- A word of a type is stepped over. -/
theorem splitType_word (found : Option (Extent Place)) {t : Lexeme Place} {ts : Tokens Place}
    (hword : (t.kind.isQualifier || Outline.isTypeName t.kind ts) = true) :
    splitType found (t :: ts) = splitType found ts := by
  have hopen : t.kind ≠ .opening .square := by
    intro hkind
    rw [hkind] at hword
    cases ts <;> cases hword
  rw [splitType, if_neg hopen, if_pos hword]

/-- A name is no word of its type, because nothing stands behind it that a type could be for. -/
theorem splitType_name (found : Option (Extent Place)) (name : Name Place) {rest : Tokens Place}
    (hrest : EndsName rest) : splitType found (name.1 :: rest) = (found, name.1 :: rest) := by
  obtain ⟨t, rest, rfl, hidentifier, hqualifier⟩ := hrest
  have hopen : name.1.kind ≠ .opening .square := by
    rcases TokenKind.eq_of_isIdentifier name.2 with hkind | hkind <;> simp [hkind]
  have hother : (name.1.kind.isQualifier || isTypeName name.1.kind (t :: rest)) = false := by
    rw [Outline.isTypeName, hidentifier, hqualifier, Bool.or_false, Bool.and_false, Bool.or_false]
    rcases TokenKind.eq_of_isIdentifier name.2 with hkind | hkind <;> rw [hkind] <;> rfl
  rw [splitType, if_neg hopen, hother]
  rfl

theorem splitType_append (found : Option (Extent Place)) {type : List (TypePart Place)}
    {name : Name Place} (hleads : Leads type name) {rest : Tokens Place} (hrest : EndsName rest) :
    splitType found (type.flatMap TypePart.tokens ++ name.1 :: rest) =
      (rangeFrom found (type.filterMap TypePart.group?), name.1 :: rest) := by
  induction type generalizing found with
  | nil => exact splitType_name found name hrest
  | cons part type ih =>
    cases part with
    | qualifier t =>
      rw [List.flatMap_cons, TypePart.tokens, List.singleton_append, List.cons_append,
        splitType_word found (by rw [t.2, Bool.true_or])]
      exact ih found hleads.tail
    | group g =>
      have hgroup := g.groupEnd_append (type.flatMap TypePart.tokens ++ name.1 :: rest)
      have htokens : (TypePart.group g :: type).flatMap TypePart.tokens ++ name.1 :: rest =
          g.opening.1 :: (g.inner ++ g.closing.1 ::
            (type.flatMap TypePart.tokens ++ name.1 :: rest)) := by
        simp [TypePart.tokens, Group.tokens]
      rw [htokens, splitType, if_pos g.opening.2, hgroup, ih _ hleads.tail, rangeFrom_widen]
      rfl
    | word t =>
      rw [List.flatMap_cons, TypePart.tokens, List.singleton_append, List.cons_append,
        splitType_word found (by rw [hleads.isTypeName rest, Bool.or_true])]
      exact ih found hleads.tail

/-! ## Ports -/

theorem skipGroups_append (gs : List (Group Place)) {t : Lexeme Place}
    (ht : t.kind ≠ .opening .square)
    (rest : Tokens Place) : skipGroups (gs.flatMap Group.tokens ++ t :: rest) = t :: rest := by
  induction gs with
  | nil => rw [List.flatMap_nil, List.nil_append, skipGroups, if_neg ht]
  | cons g gs ih =>
    have hgroup := g.groupEnd_append (gs.flatMap Group.tokens ++ t :: rest)
    have htokens : (g :: gs).flatMap Group.tokens ++ t :: rest =
        g.opening.1 :: (g.inner ++ g.closing.1 :: (gs.flatMap Group.tokens ++ t :: rest)) := by
      simp [Group.tokens]
    rw [htokens, skipGroups, if_pos g.opening.2, hgroup]
    exact ih

/-- What stands behind the name of a port is taken for dimensions and a default, and nothing more
is. -/
theorem PortItem.portTail_append (i : PortItem Place) {rest : Tokens Place}
    (hrest : Delimited rest) :
    portTail (i.tail ++ rest) = (i.default.isSome, rest) := by
  obtain ⟨name, dimensions, _ | ⟨equals, value⟩⟩ := i
  · obtain ⟨t, rest, rfl, ht⟩ := hrest
    have hopen : t.kind ≠ .opening .square := by
      rcases ht with ht | ht | ht <;> simp [ht]
    have hequals : t.kind ≠ .equals := by
      rcases ht with ht | ht | ht <;> simp [ht]
    have hskip := skipGroups_append dimensions hopen rest
    simp [portTail, tail, hskip, hequals]
  · have hopen : equals.1.kind ≠ .opening .square := by simp [equals.2]
    have hskip := skipGroups_append dimensions hopen (value.tokens ++ rest)
    have hvalue := value.splitExpression_append hrest
    simp [portTail, tail, hskip, equals.2, hvalue]

/-- A name is not taken for the name of a type by what stands behind it. -/
theorem PortItem.endsName_tail (i : PortItem Place) {rest : Tokens Place} (hrest : Delimited rest) :
    EndsName (i.tail ++ rest) := by
  obtain ⟨name, _ | ⟨g, gs⟩, _ | ⟨equals, value⟩⟩ := i
  · obtain ⟨t, rest, rfl, ht⟩ := hrest
    refine ⟨t, rest, rfl, ?_, ?_⟩ <;> rcases ht with ht | ht | ht <;> rw [ht] <;> rfl
  · exact ⟨equals.1, value.tokens ++ rest, rfl, by rw [equals.2]; rfl, by rw [equals.2]; rfl⟩
  · exact ⟨g.opening.1, _, rfl, by rw [g.opening.2]; rfl, by rw [g.opening.2]; rfl⟩
  · exact ⟨g.opening.1, _, rfl, by rw [g.opening.2]; rfl, by rw [g.opening.2]; rfl⟩

/-- What stands behind a clause: a delimiter, and no comma with a name after it. -/
def EndsClause (ts : Tokens Place) : Prop := Delimited ts ∧ continuesPorts ts = false

/-- The findings for a port of a header. -/
def PortItem.findings (direction : Direction) (range : Option (Extent Place)) (i : PortItem Place) :
    List (Finding Place) :=
  portFindings direction range i.name.1 i.default.isSome

theorem delimited_comma (comma : Mark Place .comma) (ts : Tokens Place) :
    Delimited (comma.1 :: ts) :=
  ⟨comma.1, ts, rfl, .inl comma.2⟩

theorem portNames_append (direction : Direction) (range : Option (Extent Place))
    (s : Separated Place (PortItem Place)) {rest : Tokens Place} (hrest : EndsClause rest) :
    portNames direction range (s.tokens PortItem.tokens ++ rest) =
      (s.items.flatMap (PortItem.findings direction range), rest) := by
  obtain ⟨i, more⟩ := s
  induction more generalizing i with
  | nil =>
    have htokens : (Separated.mk i []).tokens PortItem.tokens ++ rest = i.name.1 ::
        (i.tail ++ rest) := by
      simp [Separated.tokens, PortItem.tokens]
    rw [htokens, portNames, if_pos i.name.2, i.portTail_append hrest.1]
    simp [hrest.2, Separated.items, PortItem.findings]
  | cons x more ih =>
    obtain ⟨comma, j⟩ := x
    have htokens : (Separated.mk i ((comma, j) :: more)).tokens PortItem.tokens ++ rest =
        i.name.1 :: (i.tail ++ (comma.1 ::
          ((Separated.mk j more).tokens PortItem.tokens ++ rest))) := by
      simp [Separated.tokens, PortItem.tokens]
    have hgoesOn : continuesPorts
        (comma.1 :: ((Separated.mk j more).tokens PortItem.tokens ++ rest)) = true := by
      simp [Separated.tokens, PortItem.tokens, continuesPorts, comma.2, j.name.2]
    rw [htokens, portNames, if_pos i.name.2, i.portTail_append (delimited_comma comma _)]
    simp only [hgoesOn, if_true, List.drop_one, List.tail_cons, ih j]
    rfl

/-- What stands behind the first of some things is a comma, or what stands behind them all. -/
theorem Separated.delimited_more {A : Type} (spell : A → Tokens Place) (s : Separated Place A)
    {rest : Tokens Place} (hrest : Delimited rest) :
    Delimited ((s.more.flatMap fun x => x.1.1 :: spell x.2) ++ rest) := by
  obtain ⟨first, _ | ⟨⟨comma, x⟩, more⟩⟩ := s
  · exact hrest
  · exact delimited_comma comma _

/-- The findings for a clause that declares ports. -/
def PortClause.findings (c : PortClause Place) : List (Finding Place) :=
  c.items.items.flatMap (PortItem.findings c.direction (range c.type))

theorem PortClause.portClause_append (c : PortClause Place) {rest : Tokens Place}
    (hrest : EndsClause rest) :
    portClause c.direction c.keyword.1
        (c.type.flatMap TypePart.tokens ++ c.items.tokens PortItem.tokens ++ rest) =
      (c.findings, rest) := by
  have hnames := portNames_append c.direction (range c.type) c.items hrest
  have hitems : c.items.tokens PortItem.tokens ++ rest = c.items.first.name.1 ::
      (c.items.first.tail ++
        ((c.items.more.flatMap fun x => x.1.1 :: PortItem.tokens x.2) ++ rest)) := by
    simp [Separated.tokens, PortItem.tokens]
  have hends := c.items.first.endsName_tail (c.items.delimited_more PortItem.tokens hrest.1)
  have htype := splitType_append none c.leads hends
  rw [rangeFrom_none] at htype
  have hsome : c.findings.isEmpty = false := by
    simp [findings, Separated.items, PortItem.findings, portFindings]
  rw [portClause_eq, List.append_assoc, hitems, htype, ← hitems, hnames]
  exact Prod.ext (if_neg (by rw [← findings, hsome]; exact Bool.false_ne_true)) rfl

/-! ## Parameters -/

theorem ParameterItem.parameterItem_append (keyword : Lexeme Place) (i : ParameterItem Place)
    {rest : Tokens Place} (hrest : Delimited rest) :
    parameterItem keyword (i.tokens ++ rest) =
      (.parameter i.name.1 i.value.extent, rest, continuesParameters rest) := by
  have hvalue := i.value.splitExpression_append hrest
  simp [parameterItem, tokens, i.name.2, i.equals.2, hvalue, parameterFinding, i.value.extent?_eq]

theorem ParameterItem.splitType_append (i : ParameterItem Place) {type : List (TypePart Place)}
    (hleads : Leads type i.name) (rest : Tokens Place) :
    splitType none (type.flatMap TypePart.tokens ++ (i.tokens ++ rest)) =
      (range type, i.tokens ++ rest) := by
  have hends : EndsName (i.equals.1 :: (i.value.tokens ++ rest)) :=
    ⟨_, _, rfl, by rw [i.equals.2]; rfl, by rw [i.equals.2]; rfl⟩
  have htype := Header.splitType_append none hleads hends
  rw [rangeFrom_none] at htype
  exact htype

/-- The findings for a clause that declares parameters. -/
def ParameterClause.findings (c : ParameterClause Place) : List (Finding Place) :=
  c.items.items.map fun i => .parameter i.name.1 i.value.extent

theorem continuesParameters_of_continuesPorts {ts : Tokens Place} (h : continuesPorts ts = false) :
    continuesParameters ts = false := by
  rcases ts with _ | ⟨a, _ | ⟨b, _ | ⟨c, ts⟩⟩⟩
  · rfl
  · rfl
  · rfl
  · rw [continuesPorts] at h
    rw [continuesParameters, h, Bool.false_and]

/-- The type of a clause stands in front of its first parameter; the others have none. -/
theorem parameterClause_append (keyword : Lexeme Place) {type : List (TypePart Place)}
    (s : Separated Place (ParameterItem Place)) (hleads : Leads type s.first.name)
    {rest : Tokens Place} (hrest : EndsClause rest) :
    Outline.parameterClause keyword
        (type.flatMap TypePart.tokens ++ s.tokens ParameterItem.tokens ++ rest) =
      (s.items.map fun i => .parameter i.name.1 i.value.extent, rest) := by
  obtain ⟨i, more⟩ := s
  -- behind a comma the reader starts over, with a clause that has no type
  induction more generalizing i type with
  | nil =>
    have htokens : type.flatMap TypePart.tokens ++
        (Separated.mk i []).tokens ParameterItem.tokens ++ rest =
          type.flatMap TypePart.tokens ++ (i.tokens ++ rest) := by
      simp [Separated.tokens]
    rw [Outline.parameterClause, htokens, i.splitType_append hleads,
      i.parameterItem_append keyword hrest.1, continuesParameters_of_continuesPorts hrest.2]
    rfl
  | cons x more ih =>
    obtain ⟨comma, j⟩ := x
    have htokens : type.flatMap TypePart.tokens ++
        (Separated.mk i ((comma, j) :: more)).tokens ParameterItem.tokens ++ rest =
          type.flatMap TypePart.tokens ++ (i.tokens ++ (comma.1 ::
            ((Separated.mk j more).tokens ParameterItem.tokens ++ rest))) := by
      simp [Separated.tokens]
    have hgoesOn : continuesParameters
        (comma.1 :: ((Separated.mk j more).tokens ParameterItem.tokens ++ rest)) = true := by
      simp [Separated.tokens, ParameterItem.tokens, continuesParameters, comma.2,
        j.name.2, j.equals.2]
    have hnone : Leads [] j.name := fun before word after h => by simp at h
    have hmore := ih j hnone
    rw [List.flatMap_nil, List.nil_append] at hmore
    rw [Outline.parameterClause, htokens, i.splitType_append hleads,
      i.parameterItem_append keyword (delimited_comma comma _), hgoesOn]
    simp only [if_true, List.drop_one, List.tail_cons, hmore]
    rfl

theorem ParameterClause.parameterClause_append (c : ParameterClause Place) {rest : Tokens Place}
    (hrest : EndsClause rest) :
    Outline.parameterClause c.keyword.1
        (c.type.flatMap TypePart.tokens ++ c.items.tokens ParameterItem.tokens ++ rest) =
      (c.findings, rest) :=
  Header.parameterClause_append c.keyword.1 c.items c.leads hrest

/-! ## Clauses -/

/-- The findings for a clause. -/
def Clause.findings : Clause Place → List (Finding Place)
  | parameter c => c.findings
  | port c => c.findings

theorem ParameterClause.readBody_append (c : ParameterClause Place) {rest : Tokens Place}
    (hrest : EndsClause rest) : readBody (c.tokens ++ rest) = c.findings ++ readBody rest := by
  rw [tokens, List.cons_append, readBody_parameter c.keyword.2, c.parameterClause_append hrest]

theorem PortClause.readBody_append (c : PortClause Place) {rest : Tokens Place}
    (hrest : EndsClause rest) : readBody (c.tokens ++ rest) = c.findings ++ readBody rest := by
  rw [tokens, List.cons_append, readBody_direction c.keyword.2, c.portClause_append hrest]

theorem Clause.readBody_append (c : Clause Place) {rest : Tokens Place} (hrest : EndsClause rest) :
    readBody (c.tokens ++ rest) = c.findings ++ readBody rest := by
  cases c with
  | parameter c => exact c.readBody_append hrest
  | port c => exact c.readBody_append hrest

/-- A token that starts no clause is stepped over, as a mark of the given kind. -/
theorem readBody_mark {kind : TokenKind} (t : Mark Place kind)
    (hparameter : kind ≠ .keyword .parameter)
    (hdirection : ∀ d, kind ≠ .keyword (.direction d)) (ts : Tokens Place) :
    readBody (t.1 :: ts) = readBody ts :=
  readBody_other (by rwa [t.2]) (by rwa [t.2]) ts

/-- Clauses with commas between them are read one by one, if each starts with a keyword: a comma
with a keyword after it ends the clause before. -/
theorem readBody_separated {A : Type} {spell : A → Tokens Place}
    {findings : A → List (Finding Place)}
    (hread : ∀ x rest, EndsClause rest → readBody (spell x ++ rest) = findings x ++ readBody rest)
    (hkeyword : ∀ x, ∃ t ts, spell x = t :: ts ∧ t.kind.isIdentifier = false)
    (s : Separated Place A) {rest : Tokens Place} (hrest : EndsClause rest) :
    readBody (s.tokens spell ++ rest) = s.items.flatMap findings ++ readBody rest := by
  obtain ⟨x, more⟩ := s
  -- what ends each clause is the comma behind it, and what ends the last one is `rest`
  induction more generalizing x with
  | nil => simpa [Separated.tokens, Separated.items] using hread x rest hrest
  | cons y more ih =>
    obtain ⟨comma, y⟩ := y
    have htokens : (Separated.mk x ((comma, y) :: more)).tokens spell ++ rest =
        spell x ++ (comma.1 :: ((Separated.mk y more).tokens spell ++ rest)) := by
      simp [Separated.tokens]
    have hends : EndsClause (comma.1 :: ((Separated.mk y more).tokens spell ++ rest)) := by
      obtain ⟨t, ts, ht, hidentifier⟩ := hkeyword y
      refine ⟨delimited_comma comma _, ?_⟩
      simp [Separated.tokens, ht, continuesPorts, hidentifier]
    rw [htokens, hread x _ hends, readBody_mark comma (by simp) (by simp), ih y]
    simp [Separated.items]

/-- A closing parenthesis or a semicolon ends a clause. -/
theorem endsClause_of_kind {t : Lexeme Place} (ht : t.kind = .closing .paren ∨ t.kind = .semicolon)
    (ts : Tokens Place) : EndsClause (t :: ts) := by
  refine ⟨⟨t, ts, rfl, .inr ht⟩, ?_⟩
  rcases ts with _ | ⟨u, ts⟩
  · rfl
  · rcases ht with ht | ht <;> simp [continuesPorts, ht]

/-! ## Headers -/

theorem ParameterList.readBody_append (l : ParameterList Place) (rest : Tokens Place) :
    readBody (l.tokens ++ rest) =
      (l.clauses.items.flatMap ParameterClause.findings) ++ readBody rest := by
  have hclauses := readBody_separated (fun c _ => ParameterClause.readBody_append c)
    (fun c => ⟨c.keyword.1, _, rfl, by rw [c.keyword.2]; rfl⟩) l.clauses
    (endsClause_of_kind (.inl l.closing.2) rest)
  have htokens : l.tokens ++ rest = l.hash.1 :: l.opening.1 ::
      (l.clauses.tokens ParameterClause.tokens ++ l.closing.1 :: rest) := by
    simp [tokens]
  rw [htokens, readBody_mark l.hash (by simp) (by simp),
    readBody_mark l.opening (by simp) (by simp),
    hclauses, readBody_mark l.closing (by simp) (by simp)]

theorem readBody_statements (ss : List (Clause Place × Mark Place .semicolon)) :
    readBody (ss.flatMap fun s => s.1.tokens ++ [s.2.1]) = ss.flatMap fun s => s.1.findings := by
  induction ss with
  | nil => rw [List.flatMap_nil, readBody]; rfl
  | cons s ss ih =>
    rw [List.flatMap_cons, List.append_assoc, List.singleton_append,
      s.1.readBody_append (endsClause_of_kind (.inr s.2.2) _),
      readBody_mark s.2 (by simp) (by simp), ih,
      List.flatMap_cons]

/-- What stands behind the list of parameters. -/
theorem readBody_afterParameters (h : Header Place) :
    readBody (h.opening.1 :: ((h.portList.map (Separated.tokens PortClause.tokens)).getD [] ++
      h.closing.1 :: h.semicolon.1 :: h.statements.flatMap fun s => s.1.tokens ++ [s.2.1])) =
        ((h.portList.map fun l => l.items.flatMap PortClause.findings).getD []) ++
          h.statements.flatMap fun s => s.1.findings := by
  rw [readBody_mark h.opening (by simp) (by simp)]
  rcases h.portList with _ | l
  · simp only [Option.map_none, Option.getD_none, List.nil_append]
    rw [readBody_mark h.closing (by simp) (by simp), readBody_mark h.semicolon (by simp) (by simp),
      readBody_statements]
  · simp only [Option.map_some, Option.getD_some]
    rw [readBody_separated (fun c _ => PortClause.readBody_append c)
        (fun c => ⟨c.keyword.1, _, rfl, by rw [c.keyword.2]; rfl⟩) l
        (endsClause_of_kind (.inl h.closing.2) _),
      readBody_mark h.closing (by simp) (by simp), readBody_mark h.semicolon (by simp) (by simp),
      readBody_statements]

/-- The body of a header holds what its clauses do. -/
theorem readBody_body (h : Header Place) : readBody h.body = h.clauses.flatMap Clause.findings := by
  have hlists : h.clauses.flatMap Clause.findings =
      ((h.parameterList.map fun l => l.clauses.items.flatMap ParameterClause.findings).getD []) ++
        (((h.portList.map fun l => l.items.flatMap PortClause.findings).getD []) ++
          h.statements.flatMap fun s => s.1.findings) := by
    rw [clauses, List.flatMap_append, List.flatMap_append, List.flatMap_map, List.append_assoc]
    rcases h.parameterList with _ | l <;> rcases h.portList with _ | l' <;>
      simp [List.flatMap_map, Clause.findings]
  rw [hlists, body]
  rcases h.parameterList with _ | l
  · simpa using h.readBody_afterParameters
  · simp only [Option.map_some, Option.getD_some]
    rw [l.readBody_append, h.readBody_afterParameters]

/-! ## The end of the module -/

theorem Group.noCloser_tokens (g : Group Place) : NoCloser g.tokens := by
  simp only [tokens, noCloser_cons, noCloser_append, noCloser_nil, and_true]
  refine ⟨by simp [g.opening.2], fun t ht => (g.enclosed t ht).2, by simp [g.closing.2]⟩

theorem Value.noCloser_tokens (v : Value Place) : NoCloser v.tokens :=
  fun t ht => (v.enclosed t ht).2

theorem Name.not_closer (name : Name Place) : name.1.kind ≠ .keyword .moduleClose := by
  rcases TokenKind.eq_of_isIdentifier name.2 with h | h <;> simp [h]

theorem noCloser_flatMap {A : Type} {spell : A → Tokens Place} {xs : List A}
    (h : ∀ x ∈ xs, NoCloser (spell x)) : NoCloser (xs.flatMap spell) := by
  intro t ht
  obtain ⟨x, hx, ht⟩ := List.mem_flatMap.1 ht
  exact h x hx t ht

theorem Separated.noCloser_tokens {A : Type} {spell : A → Tokens Place}
    (h : ∀ x, NoCloser (spell x)) (s : Separated Place A) : NoCloser (s.tokens spell) := by
  refine noCloser_append.2 ⟨h s.first, noCloser_flatMap fun x _ => noCloser_cons.2 ⟨?_, h x.2⟩⟩
  simp [x.1.2]

theorem TypePart.noCloser_tokens (part : TypePart Place) : NoCloser part.tokens := by
  cases part with
  | qualifier t =>
    refine noCloser_cons.2 ⟨fun h => ?_, noCloser_nil⟩
    have hqualifier := t.2
    rw [h] at hqualifier
    cases hqualifier
  | group g => exact g.noCloser_tokens
  | word t =>
    refine noCloser_cons.2 ⟨fun h => ?_, noCloser_nil⟩
    have hword := t.2
    rw [h] at hword
    cases hword

theorem ParameterItem.noCloser_tokens (i : ParameterItem Place) : NoCloser i.tokens :=
  noCloser_cons.2 ⟨i.name.not_closer,
    noCloser_cons.2 ⟨by simp [i.equals.2], i.value.noCloser_tokens⟩⟩

theorem PortItem.noCloser_tokens (i : PortItem Place) : NoCloser i.tokens := by
  refine noCloser_cons.2 ⟨i.name.not_closer,
    noCloser_append.2 ⟨noCloser_flatMap fun g _ => g.noCloser_tokens, ?_⟩⟩
  rcases i.default with _ | ⟨equals, value⟩
  · exact noCloser_nil
  · exact noCloser_cons.2 ⟨by simp [equals.2], value.noCloser_tokens⟩

theorem ParameterClause.noCloser_tokens (c : ParameterClause Place) : NoCloser c.tokens :=
  noCloser_cons.2 ⟨by simp [c.keyword.2],
    noCloser_append.2 ⟨noCloser_flatMap fun part _ => part.noCloser_tokens,
      c.items.noCloser_tokens ParameterItem.noCloser_tokens⟩⟩

theorem PortClause.noCloser_tokens (c : PortClause Place) : NoCloser c.tokens :=
  noCloser_cons.2 ⟨by simp [c.keyword.2],
    noCloser_append.2 ⟨noCloser_flatMap fun part _ => part.noCloser_tokens,
      c.items.noCloser_tokens PortItem.noCloser_tokens⟩⟩

theorem noCloser_body (h : Header Place) : NoCloser h.body := by
  refine noCloser_append.2 ⟨?_, noCloser_cons.2 ⟨by simp [h.opening.2], noCloser_append.2 ⟨?_,
    noCloser_cons.2 ⟨by simp [h.closing.2], noCloser_cons.2 ⟨by simp [h.semicolon.2],
      noCloser_flatMap fun s _ => noCloser_append.2 ⟨?_, by simp [s.2.2]⟩⟩⟩⟩⟩⟩
  · rcases h.parameterList with _ | l
    · exact noCloser_nil
    · exact noCloser_cons.2 ⟨by simp [l.hash.2], noCloser_cons.2 ⟨by simp [l.opening.2],
        noCloser_append.2 ⟨l.clauses.noCloser_tokens ParameterClause.noCloser_tokens,
          by simp [l.closing.2]⟩⟩⟩
  · rcases h.portList with _ | l
    · exact noCloser_nil
    · exact l.noCloser_tokens PortClause.noCloser_tokens
  · cases s.1 with
    | parameter c => exact c.noCloser_tokens
    | port c => exact c.noCloser_tokens

/-- The outline of tokens that start with a header is that of the header. -/
theorem ofTokens_append (h : Header Place) (rest : Tokens Place) :
    ofTokens (h.tokens ++ rest) = .ok ⟨h.name.1, h.clauses.flatMap Clause.findings⟩ := by
  have htokens : h.tokens ++ rest =
      [] ++ h.opener.1 :: ((h.name.1 :: h.body) ++ h.closer.1 :: rest) := by
    simp [tokens]
  have hclosers : NoCloser (h.name.1 :: h.body) :=
    noCloser_cons.2 ⟨h.name.not_closer, h.noCloser_body⟩
  rw [htokens, ofTokens_module (by simp [NoOpener]) h.opener.2 hclosers h.closer.2, ofBody,
    if_pos h.name.2, readBody_body]

end Header

end VerilogScaffold
