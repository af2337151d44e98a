import VerilogScaffold.Proofs.Cut
import VerilogScaffold.Template.Placeholder

/-!
# Names

The names in a signature are texts of identifier tokens, so they have one of two forms (`IsName`): a
word that is no keyword, or a backslash and characters that are not blank. A plain name ends where
no word goes on, an escaped name at a blank only. Generated text therefore writes a space behind an
escaped name, but decides by the last character of the name, and takes any Unicode blank there for
that space (`TakenForTerminated`).
-/

namespace VerilogScaffold

open Text Segment

/-! ## Words -/

namespace Segment

variable {c : Char} {cs F : List Char}

theorem measure_word (hc : isWordStart c = true) (cs : List Char) :
    measure c cs = (.lexeme (wordKind (c :: cs.takeWhile isWordChar)), run isWordChar cs) := by
  have hne : ∀ d, isWordStart d = false → c ≠ d := by
    rintro d hd rfl
    rw [hc] at hd
    cases hd
  have hblank : isAsciiBlank c = false := by
    simp only [isAsciiBlank, Bool.or_eq_false_iff, beq_eq_false_iff_ne]
    exact ⟨⟨⟨⟨hne _ rfl, hne _ rfl⟩, hne _ rfl⟩, hne _ rfl⟩, hne _ rfl⟩
  rw [measure, if_neg (by simp [hblank]), if_neg fun h => hne '/' rfl h.1,
    if_neg fun h => hne '/' rfl h.1, if_neg (hne '\x60' rfl), if_pos hc]

theorem measure_word_append (hc : isWordStart c = true) (hcs : ∀ d ∈ cs, isWordChar d = true)
    (hF : startsWith isWordChar F = false) :
    measure c (cs ++ F) = (.lexeme (wordKind (c :: cs)), cs.length) := by
  have hrun := run_append_of_all hcs hF
  rw [measure_word hc, ← take_run, hrun, List.take_left]

theorem measure_escaped_append (hne : cs ≠ []) (hcs : ∀ d ∈ cs, isAsciiBlank d = false)
    (hF : startsWith (!isAsciiBlank ·) F = false) :
    measure '\\' (cs ++ F) = (.lexeme .escapedIdentifier, cs.length) := by
  have hrun : run (!isAsciiBlank ·) (cs ++ F) = cs.length :=
    run_append_of_all (by simpa using hcs) hF
  show measureEscaped (cs ++ F) = _
  rw [measureEscaped, hrun]
  rcases cs with _ | ⟨d, cs⟩
  · exact absurd rfl hne
  · rfl

end Segment

/-! ## Names -/

/-- The texts of identifier tokens. -/
inductive IsName : List Char → Prop
  | plain {c : Char} {cs : List Char} (start : isWordStart c = true)
      (rest : ∀ d ∈ cs, isWordChar d = true) (kind : wordKind (c :: cs) = .identifier) :
      IsName (c :: cs)
  | escaped {cs : List Char} (ne_nil : cs ≠ []) (rest : ∀ d ∈ cs, isAsciiBlank d = false) :
      IsName ('\\' :: cs)

/-- The kind of token that a name is. -/
def nameKind (name : List Char) : TokenKind :=
  if name.head? = some '\\' then .escapedIdentifier else .identifier

theorem isIdentifier_nameKind (name : List Char) : (nameKind name).isIdentifier = true := by
  rw [nameKind]
  split <;> rfl

/-- What an identifier token starts with. -/
theorem Segment.start_of_isIdentifier {c : Char} {cs : List Char} {kind : TokenKind}
    (hname : kind.isIdentifier = true) (h : (measure c cs).1 = .lexeme kind) :
    isWordStart c = true ∨ c = '\\' := by
  have hopens := measure_opens c cs
  rw [h] at hopens
  cases kind with
  | identifier => exact .inl hopens
  | escapedIdentifier => exact .inr (beq_iff_eq.1 hopens)
  | _ => cases hname

/-- Identifier tokens are cut off as names. -/
theorem Segment.Fits.isName {F : List Char} {s : Segment} (h : s.Fits F) {kind : TokenKind}
    (hkind : s.kind = .lexeme kind) (hname : kind.isIdentifier = true) :
    IsName s.text ∧ kind = nameKind s.text := by
  obtain ⟨c, cs, htext, hmeasure⟩ := h
  rw [hkind] at hmeasure
  rw [htext]
  rcases start_of_isIdentifier hname (congrArg Prod.fst hmeasure) with hc | rfl
  · rw [measure_word hc] at hmeasure
    obtain ⟨hwordKind, hlength⟩ := Prod.mk.inj hmeasure
    obtain ⟨hcs, -⟩ := run_append_eq_length_iff.1 hlength
    rw [← take_run, hlength, List.take_left] at hwordKind
    obtain rfl := SegmentKind.lexeme.inj hwordKind
    have hidentifier : wordKind (c :: cs) = .identifier := by
      rw [wordKind] at hname ⊢
      split at hname
      · cases hname
      · rfl
    have hne : c ≠ '\\' := by
      rintro rfl
      exact absurd hc (by decide)
    refine ⟨.plain hc hcs hidentifier, ?_⟩
    rw [hidentifier, nameKind, if_neg (by simpa using hne)]
  · have hescaped : measureEscaped (cs ++ F) = (.lexeme kind, cs.length) := hmeasure
    rw [measureEscaped] at hescaped
    split at hescaped
    · cases congrArg Prod.fst hescaped
    · rename_i hrun
      obtain ⟨rfl⟩ := SegmentKind.lexeme.inj (congrArg Prod.fst hescaped)
      obtain ⟨hcs, -⟩ := run_append_eq_length_iff.1 (congrArg Prod.snd hescaped)
      refine ⟨.escaped ?_ (by simpa using hcs), rfl⟩
      rintro rfl
      exact hrun (congrArg Prod.snd hescaped)

theorem isName_of_mem_lexemes {cs : List Char} {t : Lexeme Site} (ht : t ∈ lexemes cs)
    (hname : t.kind.isIdentifier = true) :
    IsName t.place.text ∧ t.kind = nameKind t.place.text := by
  obtain ⟨before, after, hmem⟩ := List.append_of_mem ht
  obtain ⟨segments₁, s, segments₂, hsplit, hkind, hplace, -, -⟩ := exists_of_lexemes_eq hmem
  have hfits : s.Fits (segments₂.flatMap Segment.text ++ []) := by
    have := fit_split cs
    rw [hsplit, fit_append] at this
    exact this.2.1
  have hlexeme : s.kind = .lexeme t.kind := by
    revert hkind
    rcases s.kind with _ | closed | _ | kind | fault
    · exact fun h => nomatch h
    · exact fun h => nomatch h
    · exact fun h => nomatch h
    · exact fun h => congrArg _ (Option.some.inj h)
    · intro h
      rw [← Option.some.inj h] at hname
      cases hname
  rw [hplace, Site.text_mk_append]
  exact hfits.isName hlexeme hname

/-- Whether a name is that of an identifier token of a text. -/
def NamedIn (cs : List Char) (name : String) : Prop :=
  ∃ t ∈ lexemes cs, t.kind.isIdentifier = true ∧ t.place.text = name.toList

theorem NamedIn.isName {cs : List Char} {name : String} (h : NamedIn cs name) :
    IsName name.toList := by
  obtain ⟨t, ht, hkind, htext⟩ := h
  rw [← htext]
  exact (isName_of_mem_lexemes ht hkind).1

/-- Where no identifier is escaped, no name is. -/
theorem NamedIn.head?_ne {cs : List Char} {name : String} (h : NamedIn cs name)
    (hcs : ∀ t ∈ lexemes cs, t.kind ≠ .escapedIdentifier) : name.toList.head? ≠ some '\\' := by
  obtain ⟨t, ht, hkind, htext⟩ := h
  intro hhead
  refine hcs t ht ?_
  rw [(isName_of_mem_lexemes ht hkind).2, htext, nameKind, if_pos hhead]

/-! ## Names in generated text -/

/-- Whether generated text takes an escaped name for one that has the space behind it already. -/
def TakenForTerminated (name : String) : Prop :=
  name.toList.head? = some '\\' ∧ terminatedName name = name

instance (name : String) : Decidable (TakenForTerminated name) :=
  inferInstanceAs (Decidable (_ ∧ _))

theorem terminatedName_eq_or (name : String) :
    terminatedName name = name ∨ name.toList.head? = some '\\' ∧
      terminatedName name = name ++ " " := by
  unfold terminatedName
  split
  · rename_i cs last hcs hlast
    split
    · exact .inl rfl
    · exact .inr ⟨by rw [hcs]; rfl, rfl⟩
  · exact .inl rfl

/-- A name in a column is written with spaces behind it, and with at least one if it is escaped,
unless it is taken for terminated and fills the column. -/
theorem exists_toList_padRight_terminatedName (width : Nat) (name : String) :
    ∃ k, (padRight width (terminatedName name)).toList = name.toList ++ List.replicate k ' ' ∧
      (name.toList.head? = some '\\' →
        (TakenForTerminated name → name.length < width) → 0 < k) := by
  rw [toList_padRight]
  rcases terminatedName_eq_or name with h | ⟨hhead, h⟩
  · refine ⟨width - name.length, by rw [h], fun hhead hwidth => ?_⟩
    have := hwidth ⟨hhead, h⟩
    omega
  · refine ⟨width - (name.length + 1) + 1, ?_, fun _ _ => Nat.succ_pos _⟩
    have hspace : (name ++ " ").toList = name.toList ++ [' '] := String.toList_append
    rw [h, hspace, String.length_append, List.append_assoc, List.replicate_succ]
    rfl

theorem isAsciiBlank_of_mem_replicate {k : Nat} {c : Char} (h : c ∈ List.replicate k ' ') :
    isAsciiBlank c = true := by
  rw [List.eq_of_mem_replicate h]
  rfl

/-- A name in front of spaces and what is no word. -/
theorem Reads.name {name F : List Char} {ts : List (Lexeme Site)} (hname : IsName name) {k : Nat}
    (hk : name.head? = some '\\' → 0 < k) (hF : startsWith isWordChar F = false) (h : Reads F ts) :
    Reads (name ++ (List.replicate k ' ' ++ F))
      (⟨nameKind name, ⟨name ++ (List.replicate k ' ' ++ F), List.replicate k ' ' ++ F⟩⟩ :: ts) :=
  by
  have hF' : startsWith isWordChar (List.replicate k ' ' ++ F) = false := by
    cases k with
    | zero => exact hF
    | succ k => rfl
  have hrest : Reads (List.replicate k ' ' ++ F) ts :=
    h.blanks fun c => isAsciiBlank_of_mem_replicate
  cases hname with
  | @plain c cs hstart hcs hkind =>
    have hne : c ≠ '\\' := by
      rintro rfl
      exact absurd hstart (by decide)
    have hnameKind : nameKind (c :: cs) = .identifier := if_neg (by simpa using hne)
    rw [hnameKind]
    exact hrest.lexeme (by rw [measure_word_append hstart hcs hF', hkind])
  | @escaped cs hne hcs =>
    obtain ⟨k, rfl⟩ := Nat.exists_eq_add_of_lt (hk rfl)
    refine hrest.lexeme (measure_escaped_append hne hcs ?_)
    rw [Nat.zero_add, List.replicate_succ]
    rfl

end VerilogScaffold
