import Mathlib.Data.List.Induction
import VerilogScaffold.Proofs.Likeness
import VerilogScaffold.Proofs.Padding

/-!
# Blanks where a comment stood

A comment ends every lexeme in front of it, and so do blanks, with two exceptions: a number goes on
over a gap to its base, or from its base to its digits, and a directive goes on over a gap to its
name. What is behind a segment is read there (`Joins`): a number may take blanks in, or the number
behind the blanks, and a directive may take blanks in, so that the tokens are alike in any case.
-/

namespace VerilogScaffold

open Text

namespace Segment

variable {s : Segment} {F F' G : List Char} {c : Char} {cs gap : List Char}

/-! ## Segments in front of blanks -/

/-- A string literal without its closing quote ends with its line. -/
theorem startsWith_of_stringEnd_open (h : stringEnd (cs ++ F) = (cs.length, false)) :
    startsWith (· != '\n') F = false := by
  fun_induction stringEnd cs with
  | case1 => exact (stringEnd_of_fst_eq_zero (congrArg Prod.fst h)).1
  | case2 c cs n closed hrest ih =>
    rw [List.cons_append, List.cons_append, stringEnd, Prod.mk.injEq] at h
    exact ih (Prod.ext (Nat.add_right_cancel h.1) h.2)
  | case3 cs =>
    rw [List.cons_append, stringEnd_cons (by decide), if_pos rfl] at h
    cases congrArg Prod.fst h
  | case4 cs =>
    rw [List.cons_append, stringEnd_cons (by decide), if_neg (by decide), if_pos rfl] at h
    cases congrArg Prod.snd h
  | case5 c cs hescape hnewline hquote n closed hrest ih =>
    by_cases hc : c = '\\'
    · subst hc
      obtain rfl : cs = [] := by
        rcases cs with _ | ⟨d, cs⟩
        · rfl
        · exact absurd rfl (hescape d cs rfl)
      rcases F with _ | ⟨d, F⟩
      · rfl
      · rw [List.singleton_append, stringEnd, Prod.mk.injEq, List.length_singleton] at h
        omega
    · rw [List.cons_append, stringEnd_cons hc, if_neg hnewline, if_neg hquote, Prod.mk.injEq] at h
      exact ih (Prod.ext (Nat.add_right_cancel h.1) h.2)

/-- A segment starts with a character that its kind asks for. -/
theorem Fits.exists_opens (h : s.Fits F) : ∃ c cs, s.text = c :: cs ∧ s.kind.opens c = true := by
  obtain ⟨c, cs, htext, hmeasure⟩ := h
  refine ⟨c, cs, htext, ?_⟩
  have := measure_opens c (cs ++ F)
  rwa [hmeasure] at this

theorem Fits.startsWith_of_unterminated (h : s.Fits F)
    (hs : s.kind = .malformed .unterminatedString) :
    startsWith (· != '\n') F = false := by
  obtain ⟨c, cs, htext, hmeasure⟩ := h
  have hopens := measure_opens c (cs ++ F)
  rw [hmeasure, hs] at hopens
  obtain rfl := beq_iff_eq.1 hopens
  have hstring : measureString (cs ++ F) = (s.kind, cs.length) := hmeasure
  rcases hend : stringEnd (cs ++ F) with ⟨n, _ | _⟩
  · rw [measureString, hend] at hstring
    exact startsWith_of_stringEnd_open (hend.trans (Prod.ext (congrArg Prod.snd hstring) rfl))
  · rw [measureString, hend, hs] at hstring
    cases congrArg Prod.fst hstring

/-- The text of a blank segment is blank. -/
theorem Fits.isAsciiBlank (h : s.Fits F) (hs : s.kind = .blank) :
    ∀ c ∈ s.text, isAsciiBlank c = true := by
  obtain ⟨c, cs, htext, hmeasure⟩ := h
  have hopens := measure_opens c (cs ++ F)
  rw [hmeasure, hs] at hopens
  have hc : Text.isAsciiBlank c = true := hopens
  rw [measure, if_pos hc] at hmeasure
  obtain ⟨hcs, -⟩ := run_append_eq_length_iff.1 (congrArg Prod.snd hmeasure)
  rw [htext]
  exact List.forall_mem_cons.2 ⟨hc, hcs⟩

/-- What starts with a blank can stand behind everything but the digits of a number. -/
theorem mayAdjoin_of_blank (h : startsWith Text.isAsciiBlank F' = true) : MayAdjoin F F' := by
  rcases F' with _ | ⟨c, F'⟩
  · cases h
  · have hc : Text.isAsciiBlank c = true := by simpa [startsWith] using h
    simp only [Text.isAsciiBlank, Bool.or_eq_true, beq_iff_eq] at hc
    constructor
    · intro hjoins
      rcases hc with (((rfl | rfl) | rfl) | rfl) | rfl <;> cases hjoins
    · intro hfraction
      rcases hc with (((rfl | rfl) | rfl) | rfl) | rfl <;> cases hfraction

/-! ## What is cut off in front of blanks -/

/-- Whether `s'` is cut off where `s` and `F'` stand, and leaves `G`. Both segments are of one kind,
and what `s'` takes in of `F'` are blanks, or also a number if both are numbers. -/
structure Joins (s : Segment) (F' : List Char) (s' : Segment) (G : List Char) : Prop where
  fits : s'.Fits G
  text : s'.text ++ G = s.text ++ F'
  kind : s'.kind = s.kind
  name : ∀ kind, s.kind = .lexeme kind → kind.isIdentifier = true → s'.text = s.text
  rest : VerilogScaffold.lexemes F' = VerilogScaffold.lexemes G ∨ s.kind = .lexeme .number ∧
    ∃ t : Lexeme Site, t.kind = .number ∧
    VerilogScaffold.lexemes F' = t :: VerilogScaffold.lexemes G

theorem joins_self (h : s.Fits F') : s.Joins F' s F' := ⟨h, rfl, rfl, fun _ _ _ => rfl, .inl rfl⟩

/-- The gap in front of the rest of a text. -/
theorem exists_gap (F' : List Char) : ∃ gap G, F' = gap ++ G ∧ (∀ c ∈ gap, isGap c = true) ∧
    startsWith isGap G = false ∧ F'.drop (run isGap F') = G := by
  obtain ⟨gap, G, rfl, hgap, hG⟩ := exists_run isGap F'
  exact ⟨gap, G, rfl, hgap, hG, by rw [run_append_of_all hgap hG, List.drop_left]⟩

theorem isAsciiBlank_of_isGap (h : isGap c = true) : Text.isAsciiBlank c = true := by
  simp only [isGap, Bool.or_eq_true, beq_iff_eq] at h
  rcases h with rfl | rfl <;> rfl

theorem isBaseStart_of_isDecimal (h : isDecimal c = true) : isBaseStart c = false := by
  rw [isDecimal, Bool.or_eq_true] at h
  rcases h with h | h
  · have hlower : c.toLower = c := by
      rw [Char.toLower, dif_neg]
      simp only [Char.isDigit, Bool.and_eq_true, decide_eq_true_eq, UInt32.le_iff_toNat_le] at h
      rintro ⟨hlow, -⟩
      simp only [ge_iff_le, UInt32.le_iff_toNat_le] at hlow
      exact absurd (Nat.le_trans hlow h.2) (by decide)
    have hne : ∀ d, d.isDigit = false → c ≠ d := by
      rintro d hd rfl
      rw [h] at hd
      cases hd
    simp [isBaseStart, isRadix, isSignMark, hlower, hne 'b' rfl, hne 'o' rfl, hne 'd' rfl,
      hne 'h' rfl, hne 's' rfl, hne 'S' rfl]
  · obtain rfl := beq_iff_eq.1 h
    rfl

/-- The number that a tick starts. -/
theorem fits_tick {value : List Char} (h : startsWith isBaseStart value = true) :
    Fits (value.drop (basedLength value)) ⟨.lexeme .number,
      '\'' :: value.take (basedLength value)⟩ := by
  have := fits_of_cons '\'' value
  rwa [measure_tick h] at this

/-- Digits go on over a gap to a base, and reach as far as it does. -/
theorem numberLength_append_base (hdigits : ∀ d ∈ cs, isDecimal d = true)
    (hgap : ∀ d ∈ gap, isGap d = true)
    {rest : List Char} (hbase : startsBase (gap ++ '\'' :: rest) = true) :
    numberLength (cs ++ (gap ++ '\'' :: rest)) =
      (cs ++ (gap ++ '\'' :: rest.take (basedLength rest))).length := by
  have hdecimal : startsWith isDecimal (gap ++ '\'' :: rest) = false := by
    rcases gap with _ | ⟨d, gap⟩
    · rfl
    · have hd := hgap d (List.mem_cons_self ..)
      simp only [isGap, Bool.or_eq_true, beq_iff_eq] at hd
      rcases hd with rfl | rfl <;> rfl
  have hlength := basedLength_le_length rest
  rw [numberLength_eq, run_append_of_all hdigits hdecimal, List.drop_left,
    numberTail_of_startsBase hbase,
    run_append_of_all hgap rfl, List.drop_left, List.drop_succ_cons, List.drop_zero]
  simp only [List.length_append, List.length_cons, List.length_take]
  omega

/-- Digits go on over a gap to the base of the next number. -/
theorem exists_joins_of_startsBase (h : s.Fits F) (hs : s.kind = .lexeme .number)
    (hdigits : ∀ d ∈ s.text.drop 1, isDecimal d = true)
    (hblank : startsWith Text.isAsciiBlank F' = true)
    (hbase : startsBase F' = true) : ∃ s' G, s.Joins F' s' G := by
  obtain ⟨c, cs, htext, hmeasure⟩ := h
  rw [hs] at hmeasure
  rw [htext, List.drop_succ_cons, List.drop_zero] at hdigits
  rcases measure_number (congrArg Prod.fst hmeasure) with ⟨-, hnumber⟩ | ⟨rfl, hstart⟩
  · obtain ⟨gap, G, rfl, hgap, hG, hdrop⟩ := exists_gap F'
    obtain ⟨base, value, hvalue, hstart⟩ := startsBase_iff.1 hbase
    rw [hdrop] at hvalue
    subst hvalue
    generalize hrest : base :: value = rest at hstart hbase ⊢
    have hstart' : startsWith isBaseStart rest = true := by
      rw [← hrest]
      exact hstart
    have hlength : measure c (cs ++ (gap ++ '\'' :: rest)) =
        (.lexeme .number, (cs ++ (gap ++ '\'' :: rest.take (basedLength rest))).length) := by
      rw [hnumber, numberLength_append_base hdigits hgap hbase]
    have htake : '\'' :: rest = '\'' :: rest.take (basedLength rest) ++
        rest.drop (basedLength rest) := by
      rw [List.cons_append, List.take_append_drop]
    refine ⟨⟨.lexeme .number, c :: (cs ++ (gap ++ '\'' :: rest.take (basedLength rest)))⟩,
      rest.drop (basedLength rest), ⟨⟨c, _, rfl, ?_⟩, ?_, hs.symm, ?_, .inr ⟨hs, ?_⟩⟩⟩
    · rw [List.append_assoc, List.append_assoc, ← htake]
      exact hlength
    · rw [htext, List.cons_append, List.cons_append, List.append_assoc, List.append_assoc, ← htake]
    · intro kind hkind hname
      rw [hs] at hkind
      obtain rfl := SegmentKind.lexeme.inj hkind
      cases hname
    · have htick := lexemes_append_of_fits (fits_tick hstart')
      rw [← htake] at htick
      exact ⟨_, rfl,
        (lexemes_append_of_blank (fun c hc => isAsciiBlank_of_isGap (hgap c hc)) _).trans htick⟩
  · -- a tick with its base holds more than digits
    rw [measure_tick hstart] at hmeasure
    have hpos := basedLength_pos hstart
    rcases cs with _ | ⟨d, cs⟩
    · rw [(Prod.mk.inj hmeasure).2] at hpos
      cases hpos
    · have hd : isBaseStart d = true := hstart
      rw [isBaseStart_of_isDecimal (hdigits d (List.mem_cons_self ..))] at hd
      cases hd

/-- Whether the digits that a text starts with are a number of their own. -/
def digitsAreNumber : List Char → Bool
  | c :: cs => c.isDigit && numberLength cs == run isBasedDigit cs
  | [] => false

theorem exists_lexemes_of_digitsAreNumber (h : digitsAreNumber F = true) : ∃ t : Lexeme Site,
    t.kind = .number ∧
      VerilogScaffold.lexemes F = t :: VerilogScaffold.lexemes (F.drop (run isBasedDigit F)) := by
  rcases F with _ | ⟨c, cs⟩
  · cases h
  rw [digitsAreNumber, Bool.and_eq_true, beq_iff_eq] at h
  obtain ⟨hc, hlength⟩ := h
  have hmeasure : measure c cs = (.lexeme .number, run isBasedDigit cs) := by
    rw [measure_digit hc, hlength]
  have hfits := fits_of_cons c cs
  rw [hmeasure] at hfits
  have hlexemes := lexemes_append_of_fits hfits
  rw [List.cons_append, List.take_append_drop] at hlexemes
  rw [run_cons_of_pos (by simp [isBasedDigit, hc]), List.drop_succ_cons]
  exact ⟨_, rfl, hlexemes⟩

/-- A number goes on from its base over a gap. What digits it takes in were a number of their
own. -/
theorem exists_joins_of_endsInBase (h : s.Fits F) (hs : s.kind = .lexeme .number)
    (hends : endsInBase s.text = true)
    (hdigit : startsWith isBasedDigit (F'.drop (run isGap F')) = false ∨
      digitsAreNumber (F'.drop (run isGap F')) = true) : ∃ s' G, s.Joins F' s' G := by
  obtain ⟨gap, G, rfl, hgap, hG, hdrop⟩ := exists_gap F'
  rw [hdrop] at hdigit
  obtain ⟨c, cs, htext, hmeasure⟩ := (show Fit F [s] from ⟨h, trivial⟩).nil.1
  rw [hs, List.flatMap_nil, List.append_nil, List.append_nil] at hmeasure
  rw [htext] at hends
  have hlength := measure_append_gap hmeasure hends hgap hG
  have hblank : VerilogScaffold.lexemes (gap ++ G) = VerilogScaffold.lexemes G :=
    lexemes_append_of_blank (fun c hc => isAsciiBlank_of_isGap (hgap c hc)) G
  have hcut : G.take (run isBasedDigit G) ++ G.drop (run isBasedDigit G) = G :=
    List.take_append_drop ..
  refine ⟨⟨.lexeme .number, s.text ++ (gap ++ G.take (run isBasedDigit G))⟩,
    G.drop (run isBasedDigit G),
    ⟨⟨c, cs ++ (gap ++ G.take (run isBasedDigit G)), by rw [htext]; rfl, ?_⟩, ?_, hs.symm, ?_, ?_⟩⟩
  · rw [List.append_assoc, List.append_assoc, hcut, hlength, List.length_append, List.length_append,
      List.length_append, List.length_take, Nat.min_eq_left (run_le_length ..), Nat.add_assoc]
  · rw [List.append_assoc, List.append_assoc, hcut]
  · intro kind hkind hname
    rw [hs] at hkind
    obtain rfl := SegmentKind.lexeme.inj hkind
    cases hname
  · rw [hblank]
    rcases hdigit with hdigit | hnumber
    · rw [run_eq_zero_iff.2 hdigit]
      exact .inl rfl
    · exact .inr ⟨hs, exists_lexemes_of_digitsAreNumber hnumber⟩

theorem measure_backtick (cs : List Char) : measure '\x60' cs = measureBacktick cs := by
  simp [measure, isAsciiBlank]

/-- A directive goes on over a gap, and ends there if no name follows. -/
theorem exists_joins_of_lacksName (h : s.Fits F) (hs : s.kind = .directive)
    (hname : lacksName s.text = true) (hgap : startsWith isGap F' = true)
    (hword : startsWith isWordChar (F'.drop (run isGap F')) = false) : ∃ s' G, s.Joins F' s' G := by
  obtain ⟨gap, G, rfl, hgap', hG, hdrop⟩ := exists_gap F'
  rw [hdrop] at hword
  obtain ⟨c, cs, htext, hmeasure⟩ := h
  have hopens := measure_opens c (cs ++ F)
  rw [hmeasure, hs] at hopens
  obtain rfl := beq_iff_eq.1 hopens
  obtain ⟨word, rest, rfl, hword', hrest⟩ := exists_run isWordChar cs
  rw [htext, lacksName_cons hword' hrest, Bool.and_eq_true, beq_iff_eq, List.all_eq_true] at hname
  have hall : ∀ d ∈ rest ++ gap, isGap d = true := fun d hd =>
    (List.mem_append.1 hd).elim (hname.2 d) (hgap' d)
  have hbehind : startsWith isWordChar (rest ++ (gap ++ G)) = false := by
    rw [← List.append_assoc]
    rcases hcs : rest ++ gap with _ | ⟨d, ds⟩
    · rw [(List.append_eq_nil_iff.1 hcs).2, List.nil_append, hG] at hgap
      cases hgap
    · have hd := hall d (by rw [hcs]; exact List.mem_cons_self ..)
      simp only [isGap, Bool.or_eq_true, beq_iff_eq] at hd
      rcases hd with rfl | rfl <;> rfl
  refine ⟨⟨.directive, s.text ++ gap⟩, G,
    ⟨⟨'\x60', word ++ rest ++ gap, by rw [htext]; rfl, ?_⟩, ?_, hs.symm,
    ?_, .inl ?_⟩⟩
  · rw [measure_backtick, measureBacktick]
    simp only [List.append_assoc, run_append_of_all hword' hbehind, List.take_left,
      List.drop_left, hname.1]
    rw [DirectiveExtent.measure, ← List.append_assoc rest, run_append_of_all hall hG,
      List.drop_left, run_eq_zero_iff.2 hword]
    simp only [List.length_append, Nat.add_zero]
  · rw [List.append_assoc]
  · intro kind hkind
    rw [hs] at hkind
    cases hkind
  · exact lexemes_append_of_blank (fun c hc => isAsciiBlank_of_isGap (hgap' c hc)) G

/-- Whether a segment would go on over a gap with what stands behind it: a number that ends in its
base with digits that are no number of their own, or a directive without its name with a word. -/
def resumes (F : List Char) (s : Segment) : Bool :=
  match s.kind with
  | .lexeme .number =>
    endsInBase s.text && startsWith isBasedDigit (F.drop (run isGap F)) &&
      !digitsAreNumber (F.drop (run isGap F))
  | .directive => lacksName s.text && startsWith isWordChar (F.drop (run isGap F))
  | _ => false

/-- What follows a segment starts with a blank as before, or with a blank where a comment stood. -/
theorem tolerates_of_blank (h : s.Fits F) (hs : s.kind ≠ .blank)
    (hblank : startsWith Text.isAsciiBlank F' = true)
    (hhead : F'.head? = F.head? ∨ F.head? = some '/')
    (hnumber : s.kind = .lexeme .number → endsInBase s.text = true → F.head? ≠ some '/')
    (hname : s.kind = .directive → lacksName s.text = true → startsWith isGap F' = true →
      F.head? ≠ some '/') : s.Tolerates F F' := by
  have hne : F ≠ [] := by
    rintro rfl
    rcases hhead with hhead | hhead
    · rw [List.head?_nil, List.head?_eq_none_iff] at hhead
      rw [hhead] at hblank
      cases hblank
    · cases hhead
  have hunclosed : s.kind ≠ .comment false := fun hs => hne (h.eq_nil_of_unclosed hs)
  rcases hhead with hhead | hhead
  · exact tolerates_of_head? hhead hunclosed
  · have hline : startsWith (· != '\n') F = true := by simp [startsWith, hhead]
    have hescaped : startsWith (!Text.isAsciiBlank ·) F' = true →
        startsWith (!Text.isAsciiBlank ·) F = true := by
      rcases F' with _ | ⟨c, F'⟩
      · cases hblank
      · simp_all [startsWith]
    unfold Tolerates
    split
    · exact absurd ‹_› hs
    · exact fun _ => hline
    · exact absurd ‹_› hunclosed
    · exact ⟨fun _ => hline, fun hnil => absurd hnil hne, fun hlacks hgap =>
        absurd hhead (hname ‹_› hlacks hgap)⟩
    · exact fun hends => absurd hhead (hnumber ‹_› hends)
    · exact hescaped
    · exact hescaped
    · rw [h.startsWith_of_unterminated ‹_›] at hline
      cases hline
    · trivial
    · trivial

/-- **What is cut off in front of blanks.** Where blanks stand behind a segment, as before or in
place of a comment, a segment of its kind is cut off, unless it would go on over them. -/
theorem exists_joins (h : s.Fits F) (hs : s.kind ≠ .blank)
    (hblank : startsWith Text.isAsciiBlank F' = true)
    (hhead : F'.head? = F.head? ∨ F.head? = some '/')
    (hresumes : F.head? = some '/' → s.resumes F' = false) : ∃ s' G, s.Joins F' s' G := by
  by_cases hbase : s.kind = .lexeme .number ∧ (∀ d ∈ s.text.drop 1, isDecimal d = true) ∧
    startsBase F' = true
  · exact exists_joins_of_startsBase h hbase.1 hbase.2.1 hblank hbase.2.2
  by_cases hends : s.kind = .lexeme .number ∧ endsInBase s.text = true ∧ F.head? = some '/'
  · obtain ⟨hkind, hends, hslash⟩ := hends
    have := hresumes hslash
    rw [resumes, hkind] at this
    refine exists_joins_of_endsInBase h hkind hends ?_
    rcases hdigit : startsWith isBasedDigit (F'.drop (run isGap F')) with _ | _
    · exact .inl rfl
    · exact .inr (by simpa [hends, hdigit] using this)
  by_cases hname : s.kind = .directive ∧ lacksName s.text = true ∧ startsWith isGap F' = true ∧
      F.head? = some '/'
  · obtain ⟨hkind, hname, hgap, hslash⟩ := hname
    have := hresumes hslash
    rw [resumes, hkind] at this
    exact exists_joins_of_lacksName h hkind hname hgap (by simpa [hname] using this)
  have htolerates : s.Tolerates F F' := tolerates_of_blank h hs hblank hhead
    (fun hkind hbase hslash => hends ⟨hkind, hbase, hslash⟩)
    fun hkind hlacks hgap hslash => hname ⟨hkind, hlacks, hgap, hslash⟩
  obtain ⟨c, cs, htext, hmeasure⟩ := h
  refine ⟨s, F', joins_self ⟨c, cs, htext,
    measure_append_congr (mayAdjoin_of_blank hblank) ?_ ?_ hmeasure⟩⟩
  · intro hkind hdigits hstarts
    exact absurd ⟨hkind, by rwa [htext], hstarts⟩ hbase
  · rwa [← htext]

end Segment

open Segment

/-! ## Tokens in front of blanks -/

theorem Alike.append {ts us ts' us' : List (Lexeme Site)} (h : Alike ts us) (h' : Alike ts' us') :
    Alike (ts ++ ts') (us ++ us') := by
  induction h with
  | nil => exact h'
  | cons head tail ih => exact .cons head ih
  | numbers first second both tail ih => exact .numbers first second both ih

/-- Segments make tokens that are alike in front of any text. -/
theorem alike_lexemes (F F' : List Char) (segments : List Segment) :
    Alike (Segment.lexemes F segments) (Segment.lexemes F' segments) := by
  induction segments with
  | nil => exact .nil
  | cons s rest ih =>
    rw [Segment.lexemes, Segment.lexemes]
    rcases s.kind.tokenKind? with _ | kind
    · exact ih
    · exact .cons ⟨rfl, fun _ => by rw [Site.text_mk_append, Site.text_mk_append]⟩ ih

/-- A segment in front of blanks and what is cut off there make tokens that are alike. -/
theorem alike_of_joins {s s' : Segment} {F F' G : List Char} (h : s.Fits F)
    (hjoins : s.Joins F' s' G)
    (hrest : lexemes F' = lexemes F) : Alike (lexemes (s.text ++ F)) (lexemes (s'.text ++ G)) := by
  rw [lexemes_append_of_fits h, lexemes_append_of_fits hjoins.fits, hjoins.kind, ← hrest]
  rcases hkind : s.kind.tokenKind? with _ | kind
  · rcases hjoins.rest with hG | ⟨hs, -⟩
    · rw [hG]
      exact .refl _
    · rw [hs] at hkind
      cases hkind
  · have hname : kind.isIdentifier = true → s'.text = s.text := by
      intro hidentifier
      rcases hs : s.kind with _ | _ | _ | kind' | _
      · rw [hs] at hkind
        cases hkind
      · rw [hs] at hkind
        cases hkind
      · rw [hs] at hkind
        cases hkind
      · rw [hs] at hkind
        obtain rfl := Option.some.inj hkind
        exact hjoins.name _ hs hidentifier
      · rw [hs] at hkind
        obtain rfl := Option.some.inj hkind
        cases hidentifier
    rcases hjoins.rest with hG | ⟨hs, t, ht, hG⟩
    · rw [hG]
      refine .cons ⟨rfl, fun hidentifier => ?_⟩ (.refl _)
      rw [Site.text_mk_append, Site.text_mk_append, hname hidentifier]
    · rw [hs] at hkind
      obtain rfl := Option.some.inj hkind
      rw [hG]
      exact .numbers rfl ht rfl (.refl _)

namespace Segment

variable {s : Segment} {segments : List Segment} {F F' : List Char}

theorem Fit.ne_unclosed (h : Fit F segments) (hF : F ≠ []) (hs : segments.getLast? = some s) :
    s.kind ≠ .comment false := by
  obtain ⟨front, rfl⟩ := List.getLast?_eq_some_iff.1 hs
  intro hunclosed
  exact hF ((fit_append.1 h).2.1.eq_nil_of_unclosed hunclosed)

/-- In front of a segment that is no blank, what stands behind it can be replaced by blanks. -/
theorem Fits.mayReplace (h : s.Fits F) (hs : s.kind ≠ .blank) (hF' : MayAdjoin F F') :
    MayReplace (s.text ++ F) (s.text ++ F') := by
  refine ⟨⟨fun _ => ?_, startsFraction_append_imp hF' _⟩, hF'.startsBase_append fun hgap => ?_⟩
  · rcases hcs : s.text with _ | ⟨c, cs⟩
    · exact absurd hcs h.text_ne_nil
    · rfl
  · obtain ⟨c, cs, htext, hmeasure⟩ := h
    have hc := isAsciiBlank_of_isGap (hgap c (by rw [htext]; exact List.mem_cons_self ..))
    rw [measure, if_pos hc] at hmeasure
    exact hs (congrArg Prod.fst hmeasure).symm

end Segment

/-- Blanks behind a segment that is no blank leave the tokens of the whole text alike. -/
theorem alike_of_exists_joins {front : List Segment} {s : Segment} {F F' : List Char}
    (h : Fit F (front ++ [s]))
    (hs : s.kind ≠ .blank) (hblank : startsWith Text.isAsciiBlank F' = true)
    (hjoins : ∃ s' G, s.Joins F' s' G) (hrest : lexemes F' = lexemes F) :
    Alike (lexemes (front.flatMap Segment.text ++ (s.text ++ F)))
      (lexemes (front.flatMap Segment.text ++ (s.text ++ F'))) := by
  obtain ⟨hfront, hfit, -⟩ := fit_append.1 h
  rw [List.flatMap_singleton] at hfront
  rw [List.flatMap_nil, List.nil_append] at hfit
  obtain ⟨s', G, hjoins⟩ := hjoins
  have hhead : (s.text ++ F').head? = (s.text ++ F).head? := by
    rcases hcs : s.text with _ | ⟨c, cs⟩
    · exact absurd hcs hfit.text_ne_nil
    · rfl
  have hne : s.text ++ F ≠ [] := List.append_ne_nil_of_left_ne_nil hfit.text_ne_nil F
  have hfront' : Fit (s.text ++ F') front :=
    hfront.congr (hfit.mayReplace hs (mayAdjoin_of_blank hblank)) fun u hu =>
      tolerates_of_head? hhead (hfront.ne_unclosed hne hu)
  rw [lexemes_append_of_fit hfront, lexemes_append_of_fit hfront', ← hjoins.text]
  exact (alike_lexemes _ _ front).append (alike_of_joins hfit hjoins hrest)

/-- **Blanks in place of a comment.** Where a comment stands behind some segments, blanks leave the
tokens alike, if the last of the segments does not go on over them. -/
theorem alike_of_blank {segments : List Segment} {F F' : List Char} (h : Fit F segments)
    (hblank : startsWith Text.isAsciiBlank F' = true)
    (hhead : F'.head? = F.head? ∨ F.head? = some '/')
    (hresumes : F.head? = some '/' → ∀ s, segments.getLast? = some s → s.resumes F' = false)
    (hrest : lexemes F' = lexemes F) :
    Alike (lexemes (segments.flatMap Segment.text ++ F))
      (lexemes (segments.flatMap Segment.text ++ F')) := by
  induction segments using List.reverseRecOn generalizing F F' with
  | nil =>
    rw [List.flatMap_nil, List.nil_append, List.nil_append, hrest]
    exact .refl _
  | append_singleton front s ih =>
    obtain ⟨hfront, hfit, -⟩ := fit_append.1 h
    rw [List.flatMap_singleton] at hfront
    rw [List.flatMap_nil, List.nil_append] at hfit
    rw [List.flatMap_append, List.flatMap_singleton, List.append_assoc, List.append_assoc]
    by_cases hs : s.kind = .blank
    · -- the blanks in front of the comment stand in front of the segments before them
      have htext := hfit.isAsciiBlank hs
      have hstart : ∀ H, (s.text ++ H).head? = s.text.head? ∧
          startsWith Text.isAsciiBlank (s.text ++ H) = true := by
        intro H
        rcases hcs : s.text with _ | ⟨c, cs⟩
        · exact absurd hcs hfit.text_ne_nil
        · exact ⟨rfl, htext c (by rw [hcs]; exact List.mem_cons_self ..)⟩
      refine ih hfront (hstart F').2 (.inl ((hstart F').1.trans (hstart F).1.symm))
        (fun hslash => ?_) ?_
      · have := (hstart F).2
        rw [startsWith, hslash] at this
        cases this
      · rw [lexemes_append_of_blank htext, lexemes_append_of_blank htext, hrest]
    · exact alike_of_exists_joins h hs hblank (exists_joins hfit hs hblank hhead fun hslash =>
        hresumes hslash s (List.getLast?_concat ..)) hrest

end VerilogScaffold
