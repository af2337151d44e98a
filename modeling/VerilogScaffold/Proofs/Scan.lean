import VerilogScaffold.Proofs.Statement
import VerilogScaffold.Proofs.Stripping
import VerilogScaffold.Signature.Scanner

/-!
# The scan does not fail

The scan by index mirrors the reading of lists reader by reader. While the tokens up to the
`endmodule` are `ts`, the scan stands at `index ts`; `Ahead` says that the array holds them there.
Each reader then answers, and answers what the reader of lists does, with the index of the tokens
that reader leaves.

Two things carry the argument. What a reader leaves is the end of what it was given (the `_suffix`
lemmas), so `Ahead` passes from one reader to the next; and the `endmodule` is no bracket, no name
and no type, so a reader that looks past the last token of the body stops.

Blocks are taken out by index as well, before the body is scanned. An index that is looked at there
lies before the end of the tokens, which has nothing to do with what the tokens are.
-/

namespace VerilogScaffold

variable {Place : Type}

/-! ## Readers leave the end of what they are given -/

namespace Outline

theorem groupEnd_suffix (depth : Nat) (last : Lexeme Place) (ts : Tokens Place) :
    (groupEnd depth last ts).2 <:+ ts := by
  fun_induction groupEnd depth last ts with
  | case1 => exact List.suffix_rfl
  | case2 depth last t ts hkind ih => exact ih.trans (List.suffix_cons t ts)
  | case3 last t ts hkind => exact List.suffix_cons t ts
  | case4 last t ts hkind depth ih => exact ih.trans (List.suffix_cons t ts)
  | case5 depth last t ts hkind => exact List.suffix_rfl
  | case6 depth last t ts hopening hclosing hother ih => exact ih.trans (List.suffix_cons t ts)

theorem splitExpression_suffix (depth : Nat) (ts : Tokens Place) :
    (splitExpression depth ts).2 <:+ ts :=
  ⟨_, splitExpression_append depth ts⟩

theorem splitType_suffix (range : Option (Extent Place)) (ts : Tokens Place) :
    (splitType range ts).2 <:+ ts := by
  fun_induction splitType range ts with
  | case1 => exact List.suffix_rfl
  | case2 range t ts hopen ih =>
    exact ih.trans ((groupEnd_suffix 0 t ts).trans (List.suffix_cons t ts))
  | case3 range t ts hopen hword ih => exact ih.trans (List.suffix_cons t ts)
  | case4 range t ts hopen hword => exact List.suffix_rfl

theorem skipGroups_suffix (ts : Tokens Place) : skipGroups ts <:+ ts := by
  fun_induction skipGroups ts with
  | case1 => exact List.suffix_rfl
  | case2 t ts hopen ih =>
    exact ih.trans ((groupEnd_suffix 0 t ts).trans (List.suffix_cons t ts))
  | case3 t ts hopen => exact List.suffix_rfl

theorem parameterItem_suffix (keyword : Lexeme Place) (ts : Tokens Place) :
    (parameterItem keyword ts).2.1 <:+ ts := by
  rcases ts with _ | ⟨name, _ | ⟨equals, rest⟩⟩
  · exact List.suffix_rfl
  · by_cases hname : name.kind.isIdentifier <;> simp [parameterItem, hname]
  · by_cases hname : name.kind.isIdentifier
    · by_cases hequals : equals.kind = .equals
      · simp only [parameterItem, hname, hequals, if_true]
        exact (splitExpression_suffix 0 rest).trans
          ((List.suffix_cons equals rest).trans (List.suffix_cons name _))
      · simp only [parameterItem, hname, hequals, if_true, if_false]
        exact List.suffix_cons name _
    · simp [parameterItem, hname]

/-- A parameter clause goes on at a comma. -/
theorem continuesParameters_of_parameterItem {keyword : Lexeme Place} {ts : Tokens Place}
    (h : (parameterItem keyword ts).2.2 = true) :
    continuesParameters (parameterItem keyword ts).2.1 = true := by
  revert h
  fun_cases parameterItem keyword ts <;> simp_all

theorem parameterClause_suffix (keyword : Lexeme Place) (ts : Tokens Place) :
    (parameterClause keyword ts).2 <:+ ts := by
  fun_induction parameterClause keyword ts with
  | case1 ts item hmore more ih =>
    exact ih.trans ((List.drop_suffix 1 _).trans
      ((parameterItem_suffix keyword _).trans (splitType_suffix none ts)))
  | case2 ts item hmore =>
    exact (parameterItem_suffix keyword _).trans (splitType_suffix none ts)

theorem portTail_suffix (ts : Tokens Place) : (portTail ts).2 <:+ ts := by
  have hskip := skipGroups_suffix ts
  unfold portTail
  generalize skipGroups ts = us at hskip
  rcases us with _ | ⟨t, rest⟩
  · exact hskip
  · by_cases hequals : t.kind = .equals
    · simp only [hequals, if_true]
      exact (splitExpression_suffix 0 rest).trans ((List.suffix_cons t rest).trans hskip)
    · simpa only [hequals, if_false] using hskip

theorem portNames_suffix (direction : Direction) (range : Option (Extent Place))
    (ts : Tokens Place) : (portNames direction range ts).2 <:+ ts := by
  fun_induction portNames direction range ts with
  | case1 => exact List.suffix_rfl
  | case2 name ts hname found hmore more ih =>
    exact ih.trans ((List.drop_suffix 1 _).trans
      ((portTail_suffix ts).trans (List.suffix_cons name ts)))
  | case3 name ts hname found hmore => exact (portTail_suffix ts).trans (List.suffix_cons name ts)
  | case4 name ts hname => exact List.suffix_rfl

/-- What a port clause finds and leaves is what its names do; only the remark on a clause without
names is its own. -/
theorem portClause_eq (direction : Direction) (keyword : Lexeme Place) (ts : Tokens Place) :
    portClause direction keyword ts =
      (if (portNames direction (splitType none ts).1 (splitType none ts).2).1.isEmpty then
          [.remark (.noPorts direction keyword (splitType none ts).1)]
        else (portNames direction (splitType none ts).1 (splitType none ts).2).1,
        (portNames direction (splitType none ts).1 (splitType none ts).2).2) := by
  unfold portClause
  rcases portNames direction (splitType none ts).1 (splitType none ts).2 with
    ⟨_ | ⟨x, found⟩, rest⟩ <;>
    rfl

theorem portClause_suffix (direction : Direction) (keyword : Lexeme Place) (ts : Tokens Place) :
    (portClause direction keyword ts).2 <:+ ts := by
  rw [portClause_eq]
  exact (portNames_suffix direction _ _).trans (splitType_suffix none ts)

end Outline

/-! ## Where the scan stands -/

namespace Scanner

open Outline

/-- The index from which the given tokens reach up to the `endmodule`. -/
def index (s : Scanner Place) (ts : Tokens Place) : Nat := s.stop - ts.length

/-- The given tokens, and `closer` after them, are what a scanner has ahead. -/
structure Ahead (s : Scanner Place) (closer : Lexeme Place) (ts : Tokens Place) : Prop where
  tokens : ∃ front rest, s.tokens = (front ++ (ts ++ closer :: rest)).toArray ∧
    s.stop = front.length + ts.length
  closes : closer.kind = .keyword .moduleClose

variable {s : Scanner Place} {closer t : Lexeme Place} {ts us : Tokens Place}

namespace Ahead

theorem suffix (h : s.Ahead closer ts) (hsuffix : us <:+ ts) : s.Ahead closer us where
  tokens := by
    obtain ⟨front, rest, htokens, hstop⟩ := h.tokens
    obtain ⟨read, rfl⟩ := hsuffix
    exact ⟨front ++ read, rest, by simp [htokens], by simp [hstop, Nat.add_assoc]⟩
  closes := h.closes

theorem tail (h : s.Ahead closer (t :: ts)) : s.Ahead closer ts := h.suffix (List.suffix_cons t ts)

theorem length_le (h : s.Ahead closer ts) : ts.length ≤ s.stop := by
  obtain ⟨front, rest, -, hstop⟩ := h.tokens
  omega

theorem index_lt (h : s.Ahead closer (t :: ts)) : s.index (t :: ts) < s.stop := by
  have := h.length_le
  simp only [index, List.length_cons] at this ⊢
  omega

theorem index_succ (h : s.Ahead closer (t :: ts)) : s.index (t :: ts) + 1 = s.index ts := by
  have := h.length_le
  simp only [index, List.length_cons] at this ⊢
  omega

theorem next_index (h : s.Ahead closer (t :: ts)) : s.next (s.index (t :: ts)) = s.index ts := by
  rw [next, if_pos h.index_lt, h.index_succ]

theorem next_index_drop (h : s.Ahead closer ts) (hne : ts ≠ []) :
    s.next (s.index ts) = s.index (ts.drop 1) := by
  rcases ts with _ | ⟨t, ts⟩
  · exact absurd rfl hne
  · exact h.next_index

/-- A loop that leaves fewer tokens than it was given has moved on. -/
theorem advances (h : s.Ahead closer ts) (hlength : us.length < ts.length) :
    s.Advances (s.index ts) (s.index us) := by
  have := h.length_le
  simp only [Advances, index]
  omega

/-- Looking ahead gives the tokens of the body, and past them the `endmodule`. -/
theorem token?_add (h : s.Ahead closer ts) (n : Nat) :
    s.token? (s.index ts + n) = some (ts.getD n closer) := by
  obtain ⟨front, rest, htokens, hstop⟩ := h.tokens
  have hindex : s.index ts = front.length := by rw [index, hstop, Nat.add_sub_cancel]
  rw [token?, htokens, hindex, hstop, List.getElem?_toArray, List.getElem?_append_right (by omega)]
  by_cases hn : n < ts.length
  · have hmin : min (front.length + n) (front.length + ts.length) - front.length = n := by omega
    rw [hmin, List.getElem?_append_left hn, List.getD_eq_getElem?_getD, List.getElem?_eq_getElem hn]
    rfl
  · have hmin : min (front.length + n) (front.length + ts.length) - front.length = ts.length := by
      omega
    have hpast : ts[n]? = none := List.getElem?_eq_none (Nat.le_of_not_lt hn)
    rw [hmin, List.getElem?_append_right (Nat.le_refl _), Nat.sub_self, List.getD_eq_getElem?_getD,
      hpast]
    rfl

theorem token? (h : s.Ahead closer (t :: ts)) : s.token? (s.index (t :: ts)) = some t :=
  h.token?_add 0

theorem token?_nil (h : s.Ahead closer []) : s.token? (s.index []) = some closer :=
  h.token?_add 0

theorem previous? (h : s.Ahead closer (t :: ts)) : s.previous? (s.index ts) = some t := by
  have hindex := h.index_succ
  have htoken := h.token?
  rw [Scanner.token?, Nat.min_eq_left (Nat.le_of_lt h.index_lt)] at htoken
  rw [Scanner.previous?, ← hindex, Nat.add_sub_cancel, htoken]

end Ahead

theorem index_nil (s : Scanner Place) : s.index [] = s.stop := rfl

/-! ## Bracket groups and expressions -/

/-- The scan counts the group's own bracket, the reading does not. -/
theorem groupFrom?_eq (first : Lexeme Place) {depth : Nat} {last : Lexeme Place}
    (h : s.Ahead closer ts) (hlast : s.previous? (s.index ts) = some last) :
    s.groupFrom? first (depth + 1) (s.index ts) =
      some (⟨first, (groupEnd depth last ts).1⟩, s.index (groupEnd depth last ts).2) := by
  -- the cases are those of the reading; the scan compares the index with `stop` where the list ends
  fun_induction groupEnd depth last ts with
  | case1 depth last =>
    rw [groupFrom?, index_nil, if_neg (Nat.lt_irrefl _), ← index_nil, hlast]
    rfl
  | case2 depth last t ts hkind ih =>
    rw [groupFrom?, if_pos h.index_lt, h.token?]
    simp only [Option.bind_eq_bind, Option.bind_some, hkind, h.index_succ]
    exact ih h.tail h.previous?
  | case3 last t ts hkind =>
    rw [groupFrom?, if_pos h.index_lt, h.token?]
    simp only [Option.bind_eq_bind, Option.bind_some, hkind, h.index_succ]
    rfl
  | case4 last t ts hkind depth ih =>
    rw [groupFrom?, if_pos h.index_lt, h.token?]
    simp only [Option.bind_eq_bind, Option.bind_some, hkind, h.index_succ, Nat.add_sub_cancel,
      Nat.succ_ne_zero, if_false]
    exact ih h.tail h.previous?
  | case5 depth last t ts hkind =>
    rw [groupFrom?, if_pos h.index_lt, h.token?]
    simp only [Option.bind_eq_bind, Option.bind_some, hkind, hlast]
    rfl
  | case6 depth last t ts hopening hclosing hother ih =>
    rw [groupFrom?, if_pos h.index_lt, h.token?]
    simp only [Option.bind_eq_bind, Option.bind_some, h.index_succ]
    exact ih h.tail h.previous?

/-- A group is scanned from its opening bracket. -/
theorem group?_eq (h : s.Ahead closer (t :: ts)) (ht : t.kind = .opening .square) :
    s.group? (s.index (t :: ts)) =
      some (⟨t, (groupEnd 0 t ts).1⟩, s.index (groupEnd 0 t ts).2) := by
  rw [group?, h.token?, Option.bind_eq_bind, Option.bind_some, groupFrom?,
    if_pos h.index_lt, h.token?]
  simp only [Option.bind_eq_bind, Option.bind_some, ht, h.index_succ]
  exact groupFrom?_eq t h.tail h.previous?

/-- The depth never goes below zero. -/
theorem depthStep?_eq (depth : Nat) (kind : TokenKind) :
    depthStep? depth kind = some (depthAfter? depth kind) := by
  cases kind with
  | closing b => cases depth <;> rfl
  | keyword k => cases k <;> rfl
  | _ => rfl

/-- The run scanned so far is carried along; what the expression adds to it stands behind it. -/
theorem expressionFrom?_eq {depth : Nat} (run : Tokens Place) (h : s.Ahead closer ts) :
    s.expressionFrom? depth (extent? run) (s.index ts) =
      some (extent? (run ++ (splitExpression depth ts).1),
        s.index (splitExpression depth ts).2) := by
  fun_induction splitExpression depth ts generalizing run with
  | case1 depth =>
    rw [expressionFrom?, index_nil, if_neg (Nat.lt_irrefl _), List.append_nil]
  | case2 depth t ts d hdepth ih =>
    -- the scan keeps only the ends of the run, which is enough to widen it by one token
    have hrun : some ⟨((extent? run).map Extent.first).getD t, t⟩ = extent? (run ++ [t]) := by
      cases run <;> simp [extent?]
    rw [expressionFrom?, if_pos h.index_lt, h.token?]
    simp only [Option.bind_eq_bind, Option.bind_some, depthStep?_eq, hdepth, h.index_succ, hrun]
    rw [ih (run ++ [t]) h.tail, List.append_assoc, List.singleton_append]
  | case3 depth t ts hdepth =>
    rw [expressionFrom?, if_pos h.index_lt, h.token?, List.append_nil]
    simp only [Option.bind_eq_bind, Option.bind_some, depthStep?_eq, hdepth]

/-! ## Types -/

theorem isTypeName?_eq (h : s.Ahead closer (t :: ts)) :
    s.isTypeName? (s.index (t :: ts)) = some (isTypeName t.kind ts) := by
  rw [isTypeName?, h.token?, h.token?_add 1]
  rcases ts with _ | ⟨next, ts⟩
  · simp [isTypeName, h.closes, TokenKind.isIdentifier, TokenKind.isQualifier, TokenKind.isNetType]
  · by_cases hword : t.kind.isTypeWord <;> simp [isTypeName, hword]

/-- The `endmodule` names no type. -/
theorem isTypeName?_nil (h : s.Ahead closer []) : s.isTypeName? (s.index []) = some false := by
  rw [isTypeName?, h.token?_nil]
  simp [h.closes, TokenKind.isTypeWord]

theorem typeFrom?_eq (range : Option (Extent Place)) (h : s.Ahead closer ts) :
    s.typeFrom? range (s.index ts) =
      some ((splitType range ts).1, s.index (splitType range ts).2) := by
  fun_induction splitType range ts with
  | case1 range =>
    rw [typeFrom?, h.token?_nil]
    simp [h.closes, isTypeName?_nil h, TokenKind.isQualifier, TokenKind.isNetType]
  | case2 range t ts hopen ih =>
    have hrest := h.suffix ((groupEnd_suffix 0 t ts).trans (List.suffix_cons t ts))
    have hmoved := h.advances (Nat.lt_succ_of_le (length_groupEnd_le 0 t ts))
    rw [typeFrom?, h.token?]
    simp only [Option.bind_eq_bind, Option.bind_some, hopen, if_true,
      group?_eq h hopen, if_pos hmoved]
    exact ih hrest
  | case3 range t ts hopen hword ih =>
    have hmoved : s.Advances (s.index (t :: ts)) (s.index ts) := h.advances (Nat.lt_succ_self _)
    rw [typeFrom?, h.token?]
    simp only [Option.bind_eq_bind, Option.bind_some, hopen, if_false, isTypeName?_eq h, hword,
      if_true, h.next_index, if_pos hmoved]
    exact ih h.tail
  | case4 range t ts hopen hword =>
    rw [typeFrom?, h.token?]
    simp only [Option.bind_eq_bind, Option.bind_some, hopen, if_false, isTypeName?_eq h, hword]
    rfl

theorem skipGroups?_eq (h : s.Ahead closer ts) :
    s.skipGroups? (s.index ts) = some (s.index (skipGroups ts)) := by
  fun_induction skipGroups ts with
  | case1 =>
    rw [skipGroups?, h.token?_nil]
    simp [h.closes]
  | case2 t ts hopen ih =>
    have hrest := h.suffix ((groupEnd_suffix 0 t ts).trans (List.suffix_cons t ts))
    have hmoved := h.advances (Nat.lt_succ_of_le (length_groupEnd_le 0 t ts))
    rw [skipGroups?, h.token?]
    simp only [Option.bind_eq_bind, Option.bind_some, hopen, if_true,
      group?_eq h hopen, if_pos hmoved]
    exact ih hrest
  | case3 t ts hopen =>
    rw [skipGroups?, h.token?]
    simp only [Option.bind_eq_bind, Option.bind_some, hopen, if_false]
    rfl

/-! ## Clauses -/

/-- A token is eaten only where there is one: never the `endmodule`. -/
theorem eats?_eq (kind : TokenKind) (h : s.Ahead closer ts) :
    s.eats? kind (s.index ts) = some (ts.head?.any (·.kind == kind)) := by
  rcases ts with _ | ⟨t, ts⟩
  · rw [eats?, h.token?_nil]
    simp [index_nil]
  · rw [eats?, h.token?]
    simp [h.index_lt]

theorem continuesParameters?_eq (h : s.Ahead closer ts) :
    s.continuesParameters? (s.index ts) = some (continuesParameters ts) := by
  rw [continuesParameters?, h.token?_add 1, h.token?_add 2]
  rcases ts with _ | ⟨a, _ | ⟨b, _ | ⟨c, ts⟩⟩⟩
  · rw [h.token?_nil]
    simp [continuesParameters, h.closes]
  · rw [h.token?]
    simp [continuesParameters, h.closes]
  · rw [h.token?]
    simp [continuesParameters, h.closes]
  · rw [h.token?]
    rfl

theorem continuesPorts?_eq (h : s.Ahead closer ts) :
    s.continuesPorts? (s.index ts) = some (continuesPorts ts) := by
  rw [continuesPorts?, h.token?_add 1]
  rcases ts with _ | ⟨a, _ | ⟨b, ts⟩⟩
  · rw [h.token?_nil]
    simp [continuesPorts, h.closes]
  · rw [h.token?]
    simp [continuesPorts, h.closes, TokenKind.isIdentifier]
  · rw [h.token?]
    rfl

theorem parameterItem?_eq (keyword : Lexeme Place) (h : s.Ahead closer ts) :
    s.parameterItem? keyword (s.index ts) =
      some ((Outline.parameterItem keyword ts).1, s.index (Outline.parameterItem keyword ts).2.1,
        (Outline.parameterItem keyword ts).2.2) := by
  rcases ts with _ | ⟨name, ts⟩
  · rw [parameterItem?, h.token?_nil]
    simp [h.closes, Outline.parameterItem, TokenKind.isIdentifier]
  · have heats := eats?_eq .equals h.tail
    rw [parameterItem?, h.token?]
    simp only [Option.bind_eq_bind, Option.bind_some, h.next_index, heats]
    by_cases hname : name.kind.isIdentifier
    · rcases ts with _ | ⟨equals, ts⟩
      · simp [Outline.parameterItem, hname]
      · by_cases hequals : equals.kind = .equals
        · have hrest := h.tail.tail.suffix (splitExpression_suffix 0 ts)
          have hvalue : s.expressionFrom? 0 none (s.index ts) =
              some (extent? (splitExpression 0 ts).1, s.index (splitExpression 0 ts).2) :=
            expressionFrom?_eq [] h.tail.tail
          simp only [Outline.parameterItem, hname, hequals, if_true, List.head?_cons,
            Option.any_some, beq_self_eq_true, h.tail.next_index, hvalue, Option.bind_some,
            continuesParameters?_eq hrest]
          rfl
        · simp [Outline.parameterItem, hname, hequals]
    · simp [Outline.parameterItem, hname]

theorem parameterClause?_eq (keyword : Lexeme Place) (h : s.Ahead closer ts) :
    s.parameterClause? keyword (s.index ts) =
      some ((Outline.parameterClause keyword ts).1,
        s.index (Outline.parameterClause keyword ts).2) := by
  fun_induction Outline.parameterClause keyword ts with
  | case1 ts item hmore more ih =>
    have htype := h.suffix (splitType_suffix none ts)
    have hitem := htype.suffix (parameterItem_suffix keyword _)
    -- the comma is eaten before the next round, which is why the loop moves on
    have hrest := parameterItem_rest_ne_nil hmore
    have hmoved : s.Advances (s.index ts) (s.index (item.2.1.drop 1)) := by
      have hlength := length_parameterItem_le keyword (splitType none ts).2
      have hlength' := length_splitType_le none ts
      have hpos := List.length_pos_iff.2 hrest
      exact h.advances (by simp only [item, List.length_drop]; omega)
    rw [parameterClause?, typeFrom?_eq none h]
    simp only [item] at hmore ih hmoved
    simp only [Option.bind_eq_bind, Option.bind_some, parameterItem?_eq keyword htype, hmore,
      if_true, hitem.next_index_drop hrest, if_pos hmoved]
    rw [ih (hitem.suffix (List.drop_suffix 1 _))]
    rfl
  | case2 ts item hmore =>
    have htype := h.suffix (splitType_suffix none ts)
    rw [parameterClause?, typeFrom?_eq none h]
    simp only [Option.bind_eq_bind, Option.bind_some, parameterItem?_eq keyword htype]
    simp only [item] at hmore
    simp only [hmore]
    rfl

theorem portTail?_eq (h : s.Ahead closer ts) :
    s.portTail? (s.index ts) =
      some ((Outline.portTail ts).1, s.index (Outline.portTail ts).2) := by
  have hskip := h.suffix (skipGroups_suffix ts)
  have heats := eats?_eq .equals hskip
  rw [portTail?, skipGroups?_eq h, Outline.portTail]
  simp only [Option.bind_eq_bind, Option.bind_some, heats]
  generalize skipGroups ts = left at hskip ⊢
  rcases left with _ | ⟨t, left⟩
  · rfl
  · by_cases hequals : t.kind = .equals
    · have hvalue : s.expressionFrom? 0 none (s.index left) =
          some (extent? (splitExpression 0 left).1, s.index (splitExpression 0 left).2) :=
        expressionFrom?_eq [] hskip.tail
      simp only [hequals, if_true, List.head?_cons, Option.any_some, beq_self_eq_true,
        hskip.next_index, hvalue]
      rfl
    · simp [hequals]

theorem portNames?_eq (direction : Direction) (range : Option (Extent Place))
    (h : s.Ahead closer ts) :
    s.portNames? direction range (s.index ts) =
      some ((Outline.portNames direction range ts).1,
        s.index (Outline.portNames direction range ts).2) := by
  fun_induction Outline.portNames direction range ts with
  | case1 =>
    rw [portNames?, h.token?_nil]
    simp [h.closes, TokenKind.isIdentifier]
  | case2 name ts hname found hmore more ih =>
    have htail := h.tail.suffix (portTail_suffix ts)
    have hgoesOn := continuesPorts?_eq htail
    have hrest := ne_nil_of_continuesPorts hmore
    have hmoved : s.Advances (s.index (name :: ts)) (s.index ((Outline.portTail ts).2.drop 1)) := by
      have hlength := length_portTail_le ts
      exact h.advances (by simp only [List.length_drop, List.length_cons]; omega)
    rw [portNames?, h.token?]
    simp only [Option.bind_eq_bind, Option.bind_some, hname, h.index_lt, decide_true, Bool.and_self,
      if_true, h.next_index, portTail?_eq h.tail, hgoesOn, hmore, htail.next_index_drop hrest,
      if_pos hmoved]
    rw [ih (htail.suffix (List.drop_suffix 1 _))]
    rfl
  | case3 name ts hname found hmore =>
    have htail := h.tail.suffix (portTail_suffix ts)
    have hgoesOn := continuesPorts?_eq htail
    rw [portNames?, h.token?]
    simp only [Option.bind_eq_bind, Option.bind_some, hname, h.index_lt, decide_true, Bool.and_self,
      if_true, h.next_index, portTail?_eq h.tail, hgoesOn, hmore]
    rfl
  | case4 name ts hname =>
    rw [portNames?, h.token?]
    simp [hname]

theorem portClause?_eq (direction : Direction) (keyword : Lexeme Place) (h : s.Ahead closer ts) :
    s.portClause? direction keyword (s.index ts) =
      some ((Outline.portClause direction keyword ts).1,
        s.index (Outline.portClause direction keyword ts).2) := by
  have htype := h.suffix (splitType_suffix none ts)
  rw [portClause?, typeFrom?_eq none h, portClause_eq]
  simp only [Option.bind_eq_bind, Option.bind_some, portNames?_eq direction _ htype]
  rfl

/-! ## Modules -/

theorem bodyFrom?_eq (h : s.Ahead closer ts) :
    s.bodyFrom? (s.index ts) = some (readBody ts) := by
  fun_induction readBody ts with
  | case1 =>
    rw [bodyFrom?, index_nil, if_neg (Nat.lt_irrefl _)]
  | case2 t ts hkind ih =>
    have hclause := h.tail.suffix (parameterClause_suffix t ts)
    have hmoved := h.advances (Nat.lt_succ_of_le (length_parameterClause_le t ts))
    rw [bodyFrom?, if_pos h.index_lt, h.token?]
    simp only [Option.bind_eq_bind, Option.bind_some, hkind, h.next_index,
      parameterClause?_eq t h.tail, if_pos hmoved]
    rw [ih hclause]
    rfl
  | case3 t ts d hkind ih =>
    have hclause := h.tail.suffix (portClause_suffix d t ts)
    have hmoved := h.advances (Nat.lt_succ_of_le (length_portClause_le d t ts))
    rw [bodyFrom?, if_pos h.index_lt, h.token?]
    simp only [Option.bind_eq_bind, Option.bind_some, hkind, h.next_index,
      portClause?_eq d t h.tail, if_pos hmoved]
    rw [ih hclause]
    rfl
  | case4 t ts hparameter hdirection ih =>
    have hmoved : s.Advances (s.index (t :: ts)) (s.index ts) := h.advances (Nat.lt_succ_self _)
    rw [bodyFrom?, if_pos h.index_lt, h.token?]
    simp only [Option.bind_eq_bind, Option.bind_some, h.next_index, if_pos hmoved]
    rw [ih h.tail]
    rfl

theorem outline?_eq (h : s.Ahead closer ts) :
    s.outline? (s.index ts) = some (ofBody closer ts) := by
  rcases ts with _ | ⟨name, body⟩
  · rw [outline?, h.token?_nil]
    simp [index_nil, ofBody]
  · have hlt := h.index_lt
    rw [outline?, h.token?]
    by_cases hname : name.kind.isIdentifier
    · simp [hname, Nat.not_le.2 hlt, h.next_index, bodyFrom?_eq h.tail, ofBody]
    · simp [hname, ofBody]

end Scanner

/-! ## The scan of a source -/

theorem findIdx?_eq_none {kind : TokenKind} {ts : List (Lexeme Place)}
    (h : ∀ t ∈ ts, t.kind ≠ kind) :
    ts.findIdx? (·.kind == kind) = none :=
  List.findIdx?_eq_none_iff.2 fun t ht => by simpa using h t ht

theorem findIdx?_append_cons {kind : TokenKind} {before after : List (Lexeme Place)}
    {t : Lexeme Place} (hbefore : ∀ u ∈ before, u.kind ≠ kind) (ht : t.kind = kind) :
    (before ++ t :: after).findIdx? (·.kind == kind) = some before.length := by
  rw [List.findIdx?_append, findIdx?_eq_none hbefore, List.findIdx?_cons]
  simp [ht]

/-- The tokens from an index on are those behind as many tokens. -/
theorem Lexeme.from?_append (front ts : List (Lexeme Place)) :
    Lexeme.from? (front ++ ts).toArray front.length = some ts := by
  rw [Lexeme.from?, if_pos (by simp), List.toList_toArray, List.drop_left]

theorem Lexeme.from?_append_cons (front : List (Lexeme Place)) (t : Lexeme Place)
    (ts : List (Lexeme Place)) :
    Lexeme.from? (front ++ t :: ts).toArray (front.length + 1) = some ts := by
  have h := Lexeme.from?_append (front ++ [t]) ts
  rwa [List.append_assoc, List.singleton_append, List.length_append] at h

namespace Stripped

variable {front ts inner rest : List (Lexeme Place)} {t closer : Lexeme Place} {b : Block}

/-! The steps of stripping: where it stands and what it answers is said by the tokens in front. -/

theorem ofTokensAt?_of_not_open (h : ∀ b, t.kind ≠ .keyword (.blockOpen b)) :
    ofTokensAt? (front ++ t :: ts).toArray front.length =
      (ofTokensAt? (front ++ t :: ts).toArray (front.length + 1)).map (keep t) := by
  have htoken : (front ++ t :: ts).toArray[front.length]? = some t := by simp
  rw [ofTokensAt?, if_pos (by simp), htoken, Option.bind_eq_bind, Option.bind_some]
  split
  · exact absurd ‹_› (h _)
  · exact Option.map_eq_bind.symm

theorem ofTokensAt?_of_unclosed (ht : t.kind = .keyword (.blockOpen b))
    (hcloses : closes b ts = false) :
    ofTokensAt? (front ++ t :: ts).toArray front.length =
      (ofTokensAt? (front ++ t :: ts).toArray (front.length + 1)).map (report b t) := by
  have htoken : (front ++ t :: ts).toArray[front.length]? = some t := by simp
  have hnone : ∀ u ∈ t :: ts, u.kind ≠ .keyword (.blockClose b) := by
    simpa [closes, ht] using hcloses
  rw [ofTokensAt?, if_pos (by simp), htoken]
  simp only [ht, Lexeme.from?_append, Option.bind_eq_bind, Option.bind_some]
  rw [findIdx?_eq_none hnone]
  exact Option.map_eq_bind.symm

/-- A block is stepped over up to the first of its end keywords. -/
theorem ofTokensAt?_of_closed (ht : t.kind = .keyword (.blockOpen b))
    (hinner : closes b inner = false) (hcloser : closer.kind = .keyword (.blockClose b)) :
    ofTokensAt? (front ++ t :: (inner ++ closer :: rest)).toArray front.length =
      ofTokensAt? (front ++ t :: (inner ++ closer :: rest)).toArray
        (front ++ t :: (inner ++ [closer])).length := by
  have htoken : (front ++ t :: (inner ++ closer :: rest)).toArray[front.length]? = some t := by
    simp
  have hblock : ∀ u ∈ t :: inner, u.kind ≠ .keyword (.blockClose b) := by
    simpa [closes, ht] using hinner
  have hfind : (t :: inner ++ closer :: rest).findIdx? (·.kind == .keyword (.blockClose b)) =
      some (t :: inner).length := findIdx?_append_cons hblock hcloser
  rw [ofTokensAt?, if_pos (by simp), htoken]
  simp only [ht, Lexeme.from?_append, Option.bind_eq_bind, Option.bind_some]
  rw [← List.cons_append, hfind]
  simp

/-- Stripping from an index on answers, and what it answers is what is left of the tokens behind
it. -/
theorem ofTokensAt?_append (front ts : List (Lexeme Place)) :
    ofTokensAt? (front ++ ts).toArray front.length = some (ofTokens ts) := by
  -- a block is stepped over at once, so the induction is on the length and not on the list
  induction hlength : ts.length using Nat.strongRecOn generalizing front ts with
  | ind n ih =>
    rcases ts with _ | ⟨t, ts⟩
    · rw [ofTokensAt?, if_neg (by simp)]
      rfl
    rw [List.length_cons] at hlength
    have hnext : ofTokensAt? (front ++ t :: ts).toArray (front.length + 1) =
        some (ofTokens ts) := by
      have h := ih ts.length (by omega) (front ++ [t]) ts rfl
      rwa [List.append_assoc, List.singleton_append, List.length_append] at h
    by_cases hopen : ∃ b, t.kind = .keyword (.blockOpen b)
    · obtain ⟨b, ht⟩ := hopen
      rcases hcloses : closes b ts with _ | _
      · have hkept : ofTokens (t :: ts) = report b t (ofTokens ts) := by
          rw [ofTokens, ofTokensFrom_cons_of_open ht, if_neg (by simp [hcloses]), ofTokens]
        rw [ofTokensAt?_of_unclosed ht hcloses, hnext, hkept, Option.map_some]
      · obtain ⟨inner, closer, rest, rfl, hinner, hcloser⟩ := exists_first_closer hcloses
        have hrest := ih rest.length (by simp at hlength; omega)
          (front ++ t :: (inner ++ [closer])) rest rfl
        rw [ofTokensAt?_of_closed ht hinner hcloser, ofTokens_block ht hinner hcloser, ← hrest]
        simp
    · have hnot : ∀ b, t.kind ≠ .keyword (.blockOpen b) := fun b ht => hopen ⟨b, ht⟩
      have hkept : ofTokens (t :: ts) = keep t (ofTokens ts) :=
        ofTokensFrom_cons_of_not_open hnot ts
      rw [ofTokensAt?_of_not_open hnot, hnext, hkept, Option.map_some]

/-- No step of stripping fails, whatever the tokens. -/
theorem ofTokens?_eq (ts : List (Lexeme Place)) : ofTokens? ts.toArray = some (ofTokens ts) :=
  ofTokensAt?_append [] ts

end Stripped

namespace Outline

/-- The scan answers, whatever the tokens, and what it answers is what the reading does. -/
theorem ofTokens?_eq (ts : Tokens Place) : ofTokens? ts = some (ofTokens ts) := by
  rcases shapes ts with hnone | ⟨before, opener, body, rfl, hbefore, hopener, hbody⟩ |
    ⟨before, opener, body, closer, rest, rfl, hbefore, hopener, hbody, hcloser⟩
  · rw [ofTokens?, findIdx?_eq_none hnone, ofTokens_of_noOpener hnone]
  · rw [ofTokens?, findIdx?_append_cons hbefore hopener, ofTokens_unclosed hbefore hopener hbody]
    simp [Lexeme.from?_append_cons, findIdx?_eq_none hbody]
  · -- the scanner starts behind `module`, with the body and its `endmodule` ahead
    have hahead : Scanner.Ahead ⟨(before ++ opener :: (body ++ closer :: rest)).toArray,
        before.length + 1 + body.length⟩ closer body :=
      ⟨⟨before ++ [opener], rest, by simp, by simp⟩, hcloser⟩
    have houtline := Scanner.outline?_eq hahead
    rw [Scanner.index, Nat.add_sub_cancel] at houtline
    rw [ofTokens?, findIdx?_append_cons hbefore hopener,
      ofTokens_module hbefore hopener hbody hcloser]
    simp [Lexeme.from?_append_cons, findIdx?_append_cons hbody hcloser, houtline]

end Outline

end VerilogScaffold
