import VerilogScaffold.Proofs.Relocation

/-!
# Semicolons cut module bodies

No clause reads past a semicolon: a bracket group stops before it even when it is open, an
expression stops before it at any depth, and as a token it is no type, no name and no comma. To
every reader a semicolon is therefore as good as the end of the module, and what follows it is left
over untouched.

`readBody_append_semicolon` is the consequence for bodies: what a body holds is what its parts
before and after a semicolon hold, whatever stands on either side.
-/

namespace VerilogScaffold.Outline

variable {Place : Type}

/-- A clause goes on with one more port only where tokens are left. -/
theorem ne_nil_of_continuesPorts {ts : Tokens Place} (h : continuesPorts ts = true) : ts ≠ [] := by
  rintro rfl
  simp [continuesPorts] at h

variable {semicolon : Lexeme Place} (hsemicolon : semicolon.kind = .semicolon)
  (after : Tokens Place)

include hsemicolon

/-! ## Groups, expressions and types -/

theorem groupEnd_append_semicolon (depth : Nat) (last : Lexeme Place) (ts : Tokens Place) :
    groupEnd depth last (ts ++ semicolon :: after) =
      ((groupEnd depth last ts).1, (groupEnd depth last ts).2 ++ semicolon :: after) := by
  fun_induction groupEnd depth last ts with
  | case1 => simp [groupEnd, hsemicolon]
  | case2 depth last t ts hkind ih => simpa [groupEnd, hkind] using ih
  | case3 last t ts hkind => simp [groupEnd, hkind]
  | case4 last t ts hkind depth ih => simpa [groupEnd, hkind] using ih
  | case5 depth last t ts hkind => simp [groupEnd, hkind]
  | case6 depth last t ts hopening hclosing hother ih => simp_all [groupEnd]

theorem splitExpression_append_semicolon (depth : Nat) (ts : Tokens Place) :
    splitExpression depth (ts ++ semicolon :: after) =
      ((splitExpression depth ts).1, (splitExpression depth ts).2 ++ semicolon :: after) := by
  fun_induction splitExpression depth ts with
  | case1 => simp [splitExpression, hsemicolon, depthAfter?]
  | case2 depth t ts d hdepth ih => simp [splitExpression, hdepth, ih]
  | case3 depth t ts hdepth => simp [splitExpression, hdepth]

theorem isTypeName_append_semicolon (word : TokenKind) (ts : Tokens Place) :
    isTypeName word (ts ++ semicolon :: after) = isTypeName word ts := by
  cases ts with
  | nil => simp [isTypeName, hsemicolon, TokenKind.isIdentifier, TokenKind.isQualifier,
      TokenKind.isNetType]
  | cons t ts => rfl

theorem splitType_append_semicolon (range : Option (Extent Place)) (ts : Tokens Place) :
    splitType range (ts ++ semicolon :: after) =
      ((splitType range ts).1, (splitType range ts).2 ++ semicolon :: after) := by
  fun_induction splitType range ts with
  | case1 range =>
    -- where the tokens end, the semicolon is what the reader looks at, and it is part of no type
    have hword : isTypeName semicolon.kind after = false := by
      cases after <;> simp [isTypeName, hsemicolon, TokenKind.isTypeWord]
    simp [splitType, hsemicolon, TokenKind.isQualifier, TokenKind.isNetType, hsemicolon ▸ hword]
  | case2 range t ts hopen ih =>
    rw [List.cons_append, splitType, if_pos hopen, groupEnd_append_semicolon hsemicolon]
    exact ih
  | case3 range t ts hopen hword ih =>
    rw [List.cons_append, splitType, if_neg hopen, isTypeName_append_semicolon hsemicolon,
      if_pos hword, ih]
  | case4 range t ts hopen hword =>
    rw [List.cons_append, splitType, if_neg hopen, isTypeName_append_semicolon hsemicolon,
      if_neg hword]

theorem skipGroups_append_semicolon (ts : Tokens Place) :
    skipGroups (ts ++ semicolon :: after) = skipGroups ts ++ semicolon :: after := by
  fun_induction skipGroups ts with
  | case1 => simp [skipGroups, hsemicolon]
  | case2 t ts hopen ih =>
    rw [List.cons_append, skipGroups, if_pos hopen, groupEnd_append_semicolon hsemicolon]
    exact ih
  | case3 t ts hopen =>
    rw [List.cons_append, skipGroups, if_neg hopen]

/-! ## Clauses -/

theorem continuesParameters_append_semicolon (ts : Tokens Place) :
    continuesParameters (ts ++ semicolon :: after) = continuesParameters ts := by
  rcases ts with _ | ⟨a, _ | ⟨b, _ | ⟨c, ts⟩⟩⟩
  · rcases after with _ | ⟨b, _ | ⟨c, after⟩⟩ <;> simp [continuesParameters, hsemicolon]
  · rcases after with _ | ⟨c, after⟩ <;>
      simp [continuesParameters, hsemicolon, TokenKind.isIdentifier]
  · simp [continuesParameters, hsemicolon]
  · rfl

theorem continuesPorts_append_semicolon (ts : Tokens Place) :
    continuesPorts (ts ++ semicolon :: after) = continuesPorts ts := by
  rcases ts with _ | ⟨a, _ | ⟨b, ts⟩⟩
  · rcases after with _ | ⟨b, after⟩ <;> simp [continuesPorts, hsemicolon]
  · simp [continuesPorts, hsemicolon, TokenKind.isIdentifier]
  · rfl

theorem parameterItem_append_semicolon (keyword : Lexeme Place) (ts : Tokens Place) :
    parameterItem keyword (ts ++ semicolon :: after) =
      ((parameterItem keyword ts).1, (parameterItem keyword ts).2.1 ++ semicolon :: after,
        (parameterItem keyword ts).2.2) := by
  rcases ts with _ | ⟨name, _ | ⟨equals, rest⟩⟩
  · simp [parameterItem, hsemicolon, TokenKind.isIdentifier]
  · by_cases hname : name.kind.isIdentifier <;> simp [parameterItem, hname, hsemicolon]
  · by_cases hname : name.kind.isIdentifier <;> by_cases hequals : equals.kind = .equals <;>
      simp [parameterItem, hname, hequals, splitExpression_append_semicolon hsemicolon,
        continuesParameters_append_semicolon hsemicolon]

theorem parameterClause_append_semicolon (keyword : Lexeme Place) (ts : Tokens Place) :
    parameterClause keyword (ts ++ semicolon :: after) =
      ((parameterClause keyword ts).1, (parameterClause keyword ts).2 ++ semicolon :: after) := by
  fun_induction parameterClause keyword ts with
  | case1 ts item hmore more ih =>
    have hrest := parameterItem_rest_ne_nil hmore
    rw [parameterClause, splitType_append_semicolon hsemicolon,
      parameterItem_append_semicolon hsemicolon]
    simp only [item] at hmore ih hrest
    simp only [hmore, if_true,
      List.drop_append_of_le_length (List.length_pos_iff.2 hrest), ih]
    rfl
  | case2 ts item hmore =>
    rw [parameterClause, splitType_append_semicolon hsemicolon,
      parameterItem_append_semicolon hsemicolon]
    simp only [item] at hmore
    simp only [hmore, Bool.false_eq_true, if_false]
    rfl

theorem portTail_append_semicolon (ts : Tokens Place) :
    portTail (ts ++ semicolon :: after) =
      ((portTail ts).1, (portTail ts).2 ++ semicolon :: after) := by
  simp only [portTail, skipGroups_append_semicolon hsemicolon]
  rcases skipGroups ts with _ | ⟨t, rest⟩
  · simp [hsemicolon]
  · by_cases hequals : t.kind = .equals <;>
      simp [hequals, splitExpression_append_semicolon hsemicolon]

theorem portNames_append_semicolon (direction : Direction) (range : Option (Extent Place))
    (ts : Tokens Place) :
    portNames direction range (ts ++ semicolon :: after) =
      ((portNames direction range ts).1,
        (portNames direction range ts).2 ++ semicolon :: after) := by
  fun_induction portNames direction range ts with
  | case1 => simp [portNames, hsemicolon, TokenKind.isIdentifier]
  | case2 name ts hname found hmore more ih =>
    have hrest := ne_nil_of_continuesPorts hmore
    rw [List.cons_append, portNames, if_pos hname, portTail_append_semicolon hsemicolon]
    simp only [continuesPorts_append_semicolon hsemicolon, hmore, if_true]
    rw [List.drop_append_of_le_length (List.length_pos_iff.2 hrest), ih]
  | case3 name ts hname found hmore =>
    rw [List.cons_append, portNames, if_pos hname, portTail_append_semicolon hsemicolon]
    simp only [continuesPorts_append_semicolon hsemicolon, hmore, Bool.false_eq_true, if_false]
    rfl
  | case4 name ts hname =>
    rw [List.cons_append, portNames, if_neg hname]

theorem portClause_append_semicolon (direction : Direction) (keyword : Lexeme Place)
    (ts : Tokens Place) :
    portClause direction keyword (ts ++ semicolon :: after) =
      ((portClause direction keyword ts).1,
        (portClause direction keyword ts).2 ++ semicolon :: after) := by
  simp only [portClause, splitType_append_semicolon hsemicolon,
    portNames_append_semicolon hsemicolon]
  rcases portNames direction (splitType none ts).1 (splitType none ts).2 with
    ⟨_ | ⟨x, found⟩, rest⟩ <;>
    rfl

/-! ## Bodies -/

/-- A body is read statement by statement. -/
theorem readBody_append_semicolon (ts : Tokens Place) :
    readBody (ts ++ semicolon :: after) = readBody ts ++ readBody after := by
  fun_induction readBody ts with
  | case1 =>
    -- the semicolon itself is stepped over
    rw [List.nil_append, readBody_other (by simp [hsemicolon]) (by simp [hsemicolon])]
    simp
  | case2 t ts hkind ih =>
    rw [List.cons_append, readBody_parameter hkind, parameterClause_append_semicolon hsemicolon, ih,
      List.append_assoc]
  | case3 t ts d hkind ih =>
    rw [List.cons_append, readBody_direction hkind, portClause_append_semicolon hsemicolon, ih,
      List.append_assoc]
  | case4 t ts hparameter hdirection ih =>
    rw [List.cons_append, readBody_other hparameter hdirection, ih]

end VerilogScaffold.Outline
