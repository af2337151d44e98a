import VerilogScaffold.Proofs.BlockInsertion
import VerilogScaffold.Proofs.FirstModule

/-!
# What stripping takes out

`Strips ts kept` says how `kept` is left of the tokens `ts` when blocks are taken out. From the
front on, either one token is kept, or a block goes as a whole, from its keyword to the first
of its end keywords. A block keyword is kept only where its end keyword does not come any more, so
every list is stripped in one way (`exists_strips`, `Strips.ofTokens_eq`), and whatever is said of
stripping here is read off the relation.

A keyword that is kept has no end keyword behind it in the whole list, and all the less in what is
left of it. What goes can therefore neither leave a block behind nor put one together
(`Strips.hasNoBlock`), although keywords of one kind of block stand inside blocks of the other.
Tokens without a block are stripped of nothing.
-/

namespace VerilogScaffold

variable {P : Type}

/-- The block that a token opens, if it is a block keyword. -/
def Lexeme.opened? (t : Lexeme P) : Option Block :=
  match t.kind with
  | .keyword (.blockOpen b) => some b
  | _ => none

theorem Lexeme.opened?_eq_some_iff {t : Lexeme P} {b : Block} :
    t.opened? = some b ↔ t.kind = .keyword (.blockOpen b) := by
  unfold opened?
  split <;> simp_all

/-- Tokens in which no block keyword is followed by its end keyword. -/
def HasNoBlock (ts : List (Lexeme P)) : Prop :=
  ts.Pairwise fun t u => ∀ b, t.kind = .keyword (.blockOpen b) → u.kind ≠ .keyword (.blockClose b)

/-- How tokens are left of others when blocks are taken out, from the front on. -/
inductive Strips : List (Lexeme P) → List (Lexeme P) → Prop
  | nil : Strips [] []
  /-- A token is kept, if it is not the keyword of a block that is closed after it. -/
  | keep {t : Lexeme P} {ts kept : List (Lexeme P)}
      (unclosed : ∀ b, t.kind = .keyword (.blockOpen b) → Stripped.closes b ts = false)
      (rest : Strips ts kept) :
      Strips (t :: ts) (t :: kept)
  /-- A block goes, from its keyword to the first of its end keywords. -/
  | remove {b : Block} {block ts kept : List (Lexeme P)} (isBlock : IsBlock b block)
      (rest : Strips ts kept) :
      Strips (block ++ ts) kept

namespace Strips

variable {ts kept : List (Lexeme P)}

theorem sublist (h : Strips ts kept) : kept.Sublist ts := by
  induction h with
  | nil => exact List.Sublist.refl _
  | keep _ _ ih => exact ih.cons_cons _
  | remove _ _ ih => exact ih.trans (List.sublist_append_right _ _)

theorem hasNoBlock (h : Strips ts kept) : HasNoBlock kept := by
  induction h with
  | nil => exact List.Pairwise.nil
  | @keep t ts kept hunclosed hrest ih =>
    refine List.Pairwise.cons ?_ ih
    intro u hu b ht hclose
    -- what is kept behind `t` stood behind it before
    have hts := hunclosed b ht
    rw [Stripped.closes, List.any_eq_false] at hts
    exact hts u (hrest.sublist.subset hu) (by simp [hclose])
  | remove _ _ ih => exact ih

/-- The relation says what stripping does: the keywords that it reports are those that are kept. -/
theorem ofTokens_eq (h : Strips ts kept) :
    Stripped.ofTokens ts = ⟨kept, kept.filterMap fun t => t.opened?.map fun b => (b, t)⟩ := by
  induction h with
  | nil => rfl
  | @keep t ts kept hunclosed _ ih =>
    rw [List.filterMap_cons]
    rcases hopened : t.opened? with _ | b
    · have hkind : ∀ b, t.kind ≠ .keyword (.blockOpen b) := by
        intro b hb
        rw [Lexeme.opened?_eq_some_iff.2 hb] at hopened
        cases hopened
      rw [Stripped.ofTokens, Stripped.ofTokensFrom_cons_of_not_open hkind]
      exact congrArg (Stripped.keep t) ih
    · have hkind := Lexeme.opened?_eq_some_iff.1 hopened
      rw [Stripped.ofTokens, Stripped.ofTokensFrom_cons_of_open hkind, hunclosed b hkind,
        if_neg Bool.false_ne_true]
      exact congrArg (Stripped.report b t) ih
  | remove hblock _ ih =>
    rw [Stripped.ofTokens_append_of_isBlock hblock]
    exact ih

/-- Tokens without a block are kept as they are. -/
theorem self (h : HasNoBlock ts) : Strips ts ts := by
  induction h with
  | nil => exact .nil
  | cons ht _ ih =>
    refine .keep ?_ ih
    intro b hopen
    rw [Stripped.closes, List.any_eq_false]
    intro u hu hclose
    exact ht u hu b hopen (by simpa using hclose)

end Strips

/-- Every list of tokens can be stripped. -/
theorem exists_strips (ts : List (Lexeme P)) : ∃ kept, Strips ts kept := by
  -- a block goes at once, so the induction is on the length and not on the list
  induction hlength : ts.length using Nat.strong_induction_on generalizing ts with
  | _ n ih =>
    rcases ts with _ | ⟨t, ts⟩
    · exact ⟨[], .nil⟩
    rw [List.length_cons] at hlength
    by_cases hopen : ∃ b, t.kind = .keyword (.blockOpen b) ∧ Stripped.closes b ts = true
    · obtain ⟨b, ht, hcloses⟩ := hopen
      obtain ⟨inner, closer, rest, rfl, hinner, hcloser⟩ := Stripped.exists_first_closer hcloses
      rw [List.length_append, List.length_cons] at hlength
      obtain ⟨kept, hkept⟩ := ih rest.length (by omega) rest rfl
      have hblock : IsBlock b (t :: (inner ++ [closer])) :=
        ⟨t, inner, closer, rfl, ht, hinner, hcloser⟩
      have hcut : t :: (inner ++ closer :: rest) = t :: (inner ++ [closer]) ++ rest := by simp
      rw [hcut]
      exact ⟨kept, .remove hblock hkept⟩
    · obtain ⟨kept, hkept⟩ := ih ts.length (by omega) ts rfl
      refine ⟨t :: kept, .keep ?_ hkept⟩
      intro b ht
      apply Bool.eq_false_of_not_eq_true
      intro hcloses
      exact hopen ⟨b, ht, hcloses⟩

namespace Stripped

theorem strips_ofTokens (ts : List (Lexeme P)) : Strips ts (ofTokens ts).tokens := by
  obtain ⟨kept, hkept⟩ := exists_strips ts
  rw [hkept.ofTokens_eq]
  exact hkept

/-- The keywords that are reported are those that are kept, in the order in which they stand. -/
theorem map_unclosed (ts : List (Lexeme P)) :
    (ofTokens ts).unclosed.map Prod.snd = (ofTokens ts).tokens.filter fun t =>
      t.opened?.isSome := by
  rw [(strips_ofTokens ts).ofTokens_eq]
  induction (ofTokens ts).tokens with
  | nil => rfl
  | cons t kept ih =>
    rw [List.filterMap_cons, List.filter_cons]
    rcases t.opened? with _ | b
    · exact ih
    · exact congrArg (List.cons t) ih

/-- **Stripping takes out whole blocks, reports the block keywords it keeps, and is done at the
first go.** What it leaves is what `Strips` says and nothing else is: tokens in their order, without
a block among them. The diagnostics are about the block keywords that are left. Stripping those
tokens again leaves them as they are and reports the same keywords. -/
theorem ofTokens_removes (ts : List Token) :
    (∀ kept, Strips ts kept ↔ (ofTokens ts).tokens = kept) ∧
      (ofTokens ts).tokens.Sublist ts ∧
      HasNoBlock (ofTokens ts).tokens ∧
      (ofTokens ts).diagnostics.map (fun d => (d.severity, d.code, d.span)) =
        ((ofTokens ts).tokens.filter fun t => t.opened?.isSome).map
          (fun t => (Severity.warning, (⟨.warning, 304⟩ : DiagnosticCode), t.span)) ∧
      ofTokens (ofTokens ts).tokens = ofTokens ts := by
  have hstrips := strips_ofTokens ts
  refine ⟨?_, hstrips.sublist, hstrips.hasNoBlock, ?_, ?_⟩
  · intro kept
    constructor
    · intro h
      rw [h.ofTokens_eq]
    · rintro rfl
      exact hstrips
  · rw [← map_unclosed, List.map_map, diagnostics, List.map_map]
    rfl
  · rw [(Strips.self hstrips.hasNoBlock).ofTokens_eq]
    exact hstrips.ofTokens_eq.symm

end Stripped

end VerilogScaffold
