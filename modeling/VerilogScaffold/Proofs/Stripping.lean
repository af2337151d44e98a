import VerilogScaffold.Proofs.Relocation

/-!
# Stripping part by part

Stripping looks ahead: whether a block keyword opens a block depends on all the tokens after it. It
looks for one thing only, the end keyword, so a list of tokens is stripped like its first part
followed by its second, as long as the second closes no block that the first leaves open
(`ofTokens_append`). Where the second part does close one, only tokens from that block on are lost
(`ofTokens_append_keeps`).
-/

namespace VerilogScaffold

variable {Place : Type}

namespace Stripped

/-- What is left of two parts, one after the other. -/
def append (s s' : Stripped Place) : Stripped Place :=
  ⟨s.tokens ++ s'.tokens, s.unclosed ++ s'.unclosed⟩

@[simp] theorem tokens_append (s s' : Stripped Place) :
    (s.append s').tokens = s.tokens ++ s'.tokens := rfl

@[simp] theorem unclosed_append (s s' : Stripped Place) :
    (s.append s').unclosed = s.unclosed ++ s'.unclosed := rfl

@[simp] theorem closes_append (b : Block) (ts us : List (Lexeme Place)) :
    closes b (ts ++ us) = (closes b ts || closes b us) := by
  simp [closes]

/-! ## What is kept -/

theorem tokens_sublist_from (inside : Option Block) (ts : List (Lexeme Place)) :
    (ofTokensFrom inside ts).tokens.Sublist ts := by
  fun_induction ofTokensFrom inside ts with
  | case1 => exact List.Sublist.refl _
  | case2 b t ts ih => exact ih.cons _
  | case3 t ts b hkind hcloses ih => exact ih.cons _
  | case4 t ts b hkind hcloses ih => exact ih.cons_cons _
  | case5 t ts hkind ih => exact ih.cons_cons _

/-- Stripping leaves tokens out and moves none. -/
theorem tokens_sublist (ts : List (Lexeme Place)) : (ofTokens ts).tokens.Sublist ts :=
  tokens_sublist_from none ts

theorem mem_unclosed_from {inside : Option Block} {ts : List (Lexeme Place)}
    {u : Block × Lexeme Place} (h : u ∈ (ofTokensFrom inside ts).unclosed) :
    u.2 ∈ (ofTokensFrom inside ts).tokens ∧ u.2.kind = .keyword (.blockOpen u.1) := by
  fun_induction ofTokensFrom inside ts with
  | case1 => simp at h
  | case2 b t ts ih => exact ih h
  | case3 t ts b hkind hcloses ih => exact ih h
  | case4 t ts b hkind hcloses ih =>
    rcases List.mem_cons.1 h with rfl | h
    · exact ⟨List.mem_cons_self .., hkind⟩
    · exact ⟨List.mem_cons_of_mem _ (ih h).1, (ih h).2⟩
  | case5 t ts hkind ih => exact ⟨List.mem_cons_of_mem _ (ih h).1, (ih h).2⟩

/-- An unclosed block's keyword is among the tokens kept. -/
theorem mem_unclosed {ts : List (Lexeme Place)} {u : Block × Lexeme Place}
    (h : u ∈ (ofTokens ts).unclosed) :
    u.2 ∈ (ofTokens ts).tokens ∧ u.2.kind = .keyword (.blockOpen u.1) :=
  mem_unclosed_from h

theorem unclosed_sublist_from (inside : Option Block) (ts : List (Lexeme Place)) :
    ((ofTokensFrom inside ts).unclosed.map Prod.snd).Sublist ts := by
  fun_induction ofTokensFrom inside ts with
  | case1 => exact List.Sublist.refl _
  | case2 b t ts ih => exact ih.cons _
  | case3 t ts b hkind hcloses ih => exact ih.cons _
  | case4 t ts b hkind hcloses ih => exact ih.cons_cons _
  | case5 t ts hkind ih => exact ih.cons _

/-- Unclosed blocks are met in the order of their keywords. -/
theorem unclosed_sublist (ts : List (Lexeme Place)) :
    ((ofTokens ts).unclosed.map Prod.snd).Sublist ts :=
  unclosed_sublist_from none ts

/-! ## Stripping two parts -/

/-- A token that opens no block is kept. -/
theorem ofTokensFrom_cons_of_not_open {t : Lexeme Place}
    (ht : ∀ b, t.kind ≠ .keyword (.blockOpen b)) (ts : List (Lexeme Place)) :
    ofTokensFrom none (t :: ts) = keep t (ofTokensFrom none ts) := by
  rw [ofTokensFrom]
  split
  · exact absurd ‹_› (ht _)
  · rfl

theorem ofTokensFrom_cons_of_open {t : Lexeme Place} {b : Block}
    (ht : t.kind = .keyword (.blockOpen b)) (ts : List (Lexeme Place)) :
    ofTokensFrom none (t :: ts) =
      if closes b ts then ofTokensFrom (some b) ts else report b t (ofTokensFrom none ts) := by
  rw [ofTokensFrom, ht]

/-- Inside a block, the first part has to hold the end keyword: that is how the block was opened. -/
theorem ofTokensFrom_append {inside : Option Block} {ts us : List (Lexeme Place)}
    (hinside : ∀ b, inside = some b → closes b ts = true)
    (h : ∀ u ∈ (ofTokensFrom inside ts).unclosed, closes u.1 us = false) :
    ofTokensFrom inside (ts ++ us) = (ofTokensFrom inside ts).append (ofTokens us) := by
  fun_induction ofTokensFrom inside ts with
  | case1 inside =>
    rcases inside with _ | b
    · rfl
    · -- the first part cannot end inside a block
      exact absurd (hinside b rfl) (by simp [closes])
  | case2 b t ts ih =>
    rw [List.cons_append, ofTokensFrom]
    refine ih (fun b' hb' => ?_) h
    split at hb'
    · simp at hb'
    · obtain rfl := Option.some.inj hb'
      simpa [closes, ‹¬_›] using hinside b rfl
  | case3 t ts b hkind hcloses ih =>
    rw [List.cons_append, ofTokensFrom_cons_of_open hkind, closes_append, hcloses, Bool.true_or,
      if_pos rfl]
    exact ih (fun b' hb' => Option.some.inj hb' ▸ hcloses) h
  | case4 t ts b hkind hcloses ih =>
    -- a keyword without its end keyword in either part stays where it is
    have hus : closes b us = false := h (b, t) (List.mem_cons_self ..)
    have hts : closes b ts = false := by simpa using hcloses
    rw [List.cons_append, ofTokensFrom_cons_of_open hkind, closes_append, hts, hus,
      Bool.false_or, if_neg Bool.false_ne_true,
      ih (by simp) fun u hu => h u (List.mem_cons_of_mem _ hu)]
    rfl
  | case5 t ts hkind ih =>
    rw [List.cons_append, ofTokensFrom_cons_of_not_open hkind, ih (by simp) h]
    rfl

/-- Two parts are stripped one by one, unless the second closes what the first leaves open. -/
theorem ofTokens_append {ts us : List (Lexeme Place)}
    (h : ∀ u ∈ (ofTokens ts).unclosed, closes u.1 us = false) :
    ofTokens (ts ++ us) = (ofTokens ts).append (ofTokens us) :=
  ofTokensFrom_append (by simp) h

/-- Tokens kept of a first part are kept whatever the second part closes after them. -/
theorem ofTokensFrom_append_keeps {inside : Option Block} {ts us kept : List (Lexeme Place)}
    (hkept : kept <+: (ofTokensFrom inside ts).tokens)
    (h : ∀ t ∈ kept, ∀ b, t.kind = .keyword (.blockOpen b) → closes b us = false) :
    kept <+: (ofTokensFrom inside (ts ++ us)).tokens := by
  fun_induction ofTokensFrom inside ts generalizing kept with
  | case1 inside =>
    rw [List.prefix_nil.1 hkept]
    exact List.nil_prefix
  | case2 b t ts ih =>
    rw [List.cons_append, ofTokensFrom]
    exact ih hkept h
  | case3 t ts b hkind hcloses ih =>
    rw [List.cons_append, ofTokensFrom_cons_of_open hkind, closes_append, hcloses, Bool.true_or,
      if_pos rfl]
    exact ih hkept h
  | case4 t ts b hkind hcloses ih =>
    rcases kept with _ | ⟨k, kept⟩
    · exact List.nil_prefix
    · obtain ⟨rfl, hrest⟩ := List.cons_prefix_cons.1 hkept
      have hus : closes b us = false := h k (List.mem_cons_self ..) b hkind
      have hts : closes b ts = false := by simpa using hcloses
      rw [List.cons_append, ofTokensFrom_cons_of_open hkind, closes_append, hts, hus,
        Bool.false_or, if_neg Bool.false_ne_true]
      exact List.cons_prefix_cons.2 ⟨rfl, ih hrest fun t ht => h t (List.mem_cons_of_mem _ ht)⟩
  | case5 t ts hkind ih =>
    rcases kept with _ | ⟨k, kept⟩
    · exact List.nil_prefix
    · obtain ⟨rfl, hrest⟩ := List.cons_prefix_cons.1 hkept
      rw [List.cons_append, ofTokensFrom_cons_of_not_open hkind]
      exact List.cons_prefix_cons.2 ⟨rfl, ih hrest fun t ht => h t (List.mem_cons_of_mem _ ht)⟩

/-- Tokens kept of a first part are kept, if none of them opens a block that the second closes. -/
theorem ofTokens_append_keeps {ts us kept : List (Lexeme Place)}
    (hkept : kept <+: (ofTokens ts).tokens)
    (h : ∀ t ∈ kept, ∀ b, t.kind = .keyword (.blockOpen b) → closes b us = false) :
    kept <+: (ofTokens (ts ++ us)).tokens :=
  ofTokensFrom_append_keeps hkept h

/-! ## Blocks -/

/-- A list that has an end keyword falls into what stands in front of the first one and what stands
behind it. -/
theorem exists_first_closer {b : Block} {ts : List (Lexeme Place)} (h : closes b ts = true) :
    ∃ inner closer rest, ts = inner ++ closer :: rest ∧ closes b inner = false ∧
      closer.kind = .keyword (.blockClose b) := by
  obtain ⟨u, hu, hclose⟩ := List.any_eq_true.1 h
  rcases Outline.exists_first (.keyword (.blockClose b)) ts with
    hnone | ⟨inner, closer, rest, rfl, hcloser, hinner⟩
  · exact absurd (by simpa using hclose) (hnone u hu)
  · refine ⟨inner, closer, rest, rfl, ?_, hcloser⟩
    rw [closes, List.any_eq_false]
    intro t ht
    simpa using hinner t ht

theorem ofTokensFrom_inside {b : Block} {inner : List (Lexeme Place)} {closer : Lexeme Place}
    (hinner : closes b inner = false) (hcloser : closer.kind = .keyword (.blockClose b))
    (ts : List (Lexeme Place)) :
    ofTokensFrom (some b) (inner ++ closer :: ts) = ofTokens ts := by
  induction inner with
  | nil =>
    rw [List.nil_append, ofTokensFrom, if_pos hcloser]
    rfl
  | cons t inner ih =>
    rw [closes, List.any_cons, Bool.or_eq_false_iff] at hinner
    rw [List.cons_append, ofTokensFrom, if_neg (by simpa using hinner.1)]
    exact ih hinner.2

/-- A block that runs to the first of its end keywords leaves nothing. -/
theorem ofTokens_block {b : Block} {opener closer : Lexeme Place} {inner : List (Lexeme Place)}
    (hopener : opener.kind = .keyword (.blockOpen b)) (hinner : closes b inner = false)
    (hcloser : closer.kind = .keyword (.blockClose b)) (ts : List (Lexeme Place)) :
    ofTokens (opener :: (inner ++ closer :: ts)) = ofTokens ts := by
  have hcloses : closes b (inner ++ closer :: ts) = true := by
    simp [closes, hcloser]
  rw [ofTokens, ofTokensFrom_cons_of_open hopener, if_pos hcloses,
    ofTokensFrom_inside hinner hcloser]

end Stripped

end VerilogScaffold
