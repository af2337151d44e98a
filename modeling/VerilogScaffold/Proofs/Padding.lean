import VerilogScaffold.Proofs.Excerpt

/-!
# Padding behind an excerpt

Generated text fills its columns with spaces, so a value that was copied from a source stands in
front of spaces and a semicolon. Two kinds of token reach into what stands behind them. A number
that ends in its base takes the spaces in, since its digits might follow them: what is read back is
the value with the spaces (`Excerpt.append_gap`). An escaped name is ended by a blank only, and runs
on where there is no space. Every other token ends where it ended, and `Excerpt.exists_padded` puts
the cases together.
-/

namespace VerilogScaffold

open Text

namespace Segment

variable {p : Char → Bool} {c : Char} {cs gap F : List Char}

/-! ## Numbers that end in their base -/

theorem run_append_cons_le (hc : p c = false) (front back : List Char) :
    run p (front ++ c :: back) ≤ front.length := by
  induction front with
  | nil => exact Nat.le_of_eq (run_cons_of_neg hc back)
  | cons d front ih =>
    by_cases hd : p d = true
    · rw [List.cons_append, run_cons_of_pos hd, List.length_cons]
      exact Nat.succ_le_succ ih
    · rw [List.cons_append, run_cons_of_neg (by simpa using hd)]
      exact Nat.zero_le _

theorem fractionLength_append_tick_le (front back : List Char) :
    fractionLength (front ++ '\'' :: back) ≤ front.length := by
  rcases front with _ | ⟨d, front⟩
  · exact Nat.le_refl 0
  · by_cases hd : d = '.'
    · subst hd
      rw [List.cons_append, fractionLength, List.length_cons, Nat.add_comm]
      split
      · exact Nat.succ_le_succ (run_append_cons_le rfl front back)
      · exact Nat.zero_le _
    · rw [fractionLength_eq_zero_of_startsFraction (by simp [startsFraction, hd])]
      exact Nat.zero_le _

theorem exponentLength_append_tick_le (front back : List Char) :
    exponentLength (front ++ '\'' :: back) ≤ front.length := by
  rcases front with _ | ⟨d, front⟩
  · exact Nat.le_refl 0
  · simp only [List.cons_append, exponentLength, List.length_cons]
    split
    · rcases front with _ | ⟨d', front⟩
      · simp [startsWith, run_cons_of_neg (show isDecimal '\'' = false from rfl)]
      · split
        · rw [List.cons_append, List.drop_succ_cons, List.drop_zero, List.length_cons]
          have := run_append_cons_le (show isDecimal '\'' = false from rfl) front back
          omega
        · have := run_append_cons_le (show isDecimal '\'' = false from rfl) (d' :: front) back
          rw [List.drop_zero]
          omega
    · exact Nat.zero_le _

/-- A tick behind the digits of a number belongs to it only as the start of its base. -/
theorem startsBase_of_endsInBase (hends : endsInBase cs = true) (h : numberTail cs = cs.length) :
    startsBase cs = true := by
  rcases hbase : startsBase cs with _ | _
  · obtain ⟨front, back, rfl, hfront, hback⟩ := exists_run (· != '\'') cs
    rcases back with _ | ⟨d, back⟩
    · rw [endsInBase_append (by simpa using hfront)] at hends
      cases hends
    · obtain rfl : d = '\'' := by simpa [startsWith] using hback
      have hle := fractionLength_append_tick_le front back
      have hexponent := exponentLength_append_tick_le
        (front.drop (fractionLength (front ++ '\'' :: back))) back
      rw [numberTail_of_not_startsBase hbase, List.drop_append_of_le_length hle,
        List.length_append, List.length_cons] at h
      rw [List.length_drop] at hexponent
      omega
  · rfl

theorem run_eq_length (h : ∀ c ∈ cs, p c = true) : run p cs = cs.length := by
  rw [run, ← List.append_nil cs, List.takeWhile_append_of_pos h, List.takeWhile_nil]

variable (hgap : ∀ c ∈ gap, isGap c = true) (hF : startsWith isGap F = false)

include hgap hF

theorem digitsLength_append_gap (h : isBaseAndGap cs = true) :
    digitsLength (cs ++ (gap ++ F)) = (cs ++ gap).length + run isBasedDigit F := by
  rcases cs with _ | ⟨c, rest⟩
  · cases h
  · rw [isBaseAndGap, Bool.and_eq_true, List.all_eq_true] at h
    have hall : ∀ d ∈ rest ++ gap, isGap d = true := fun d hd =>
      (List.mem_append.1 hd).elim (h.2 d) (hgap d)
    rw [List.cons_append, digitsLength, if_pos h.1, ← List.append_assoc, run_append_of_all hall hF,
      List.drop_left, List.cons_append, List.length_cons]
    omega

theorem basedLength_append_gap (h : opensBase cs = true) :
    basedLength (cs ++ (gap ++ F)) = (cs ++ gap).length + run isBasedDigit F := by
  rcases cs with _ | ⟨c, cs⟩
  · cases h
  · rw [opensBase] at h
    rw [basedLength_eq, startsWith_append_of_ne_nil (List.cons_ne_nil c cs) [], List.append_nil]
    split at h
    · rw [List.drop_succ_cons, List.drop_zero] at h
      rw [if_pos ‹_›, List.cons_append, List.drop_succ_cons, List.drop_zero,
        digitsLength_append_gap hgap hF h, List.cons_append, List.length_cons]
      omega
    · rw [if_neg ‹_›, List.drop_zero, Nat.zero_add]
      exact digitsLength_append_gap hgap hF h

theorem numberTail_append_gap (hends : endsInBase cs = true) (h : numberTail cs = cs.length) :
    numberTail (cs ++ (gap ++ F)) = (cs ++ gap).length + run isBasedDigit F := by
  obtain ⟨base, value, hdrop, hbase⟩ := startsBase_iff.1 (startsBase_of_endsInBase hends h)
  obtain ⟨front, back, rfl, hfront, hback⟩ := exists_run isGap cs
  rw [run_append_of_all hfront hback, List.drop_left] at hdrop
  subst hdrop
  have hne : ∀ c ∈ front, c ≠ '\'' := by
    rintro c hc rfl
    exact absurd (hfront _ hc) (by decide)
  rw [endsInBase_append hne, endsInBase_tick] at hends
  have hrun : run isGap (front ++ ('\'' :: base :: (value ++ (gap ++ F)))) = front.length :=
    run_append_of_all hfront rfl
  have hstarts : startsBase (front ++ ('\'' :: base :: (value ++ (gap ++ F)))) = true := by
    rw [startsBase, hrun, List.drop_left]
    exact hbase
  have hlength := basedLength_append_gap hgap hF hends
  rw [List.append_assoc, List.cons_append, List.cons_append, numberTail_of_startsBase hstarts, hrun,
    List.drop_left, List.drop_succ_cons, List.drop_zero, ← List.cons_append, hlength]
  simp only [List.length_append, List.length_cons]
  omega

theorem numberLength_append_gap (hends : endsInBase cs = true) (h : numberLength cs = cs.length) :
    numberLength (cs ++ (gap ++ F)) = (cs ++ gap).length + run isBasedDigit F := by
  obtain ⟨digits, rest, rfl, hdigits, hrest⟩ := exists_run isDecimal cs
  have hne : ∀ c ∈ digits, c ≠ '\'' := by
    rintro c hc rfl
    exact absurd (hdigits _ hc) (by decide)
  rw [endsInBase_append hne] at hends
  have hrest' : startsWith isDecimal (rest ++ (gap ++ F)) = false := by
    rcases rest with _ | ⟨d, rest⟩
    · cases hends
    · exact hrest
  rw [numberLength_eq, run_append_of_all hdigits hrest, List.drop_left, List.length_append] at h
  rw [numberLength_eq, List.append_assoc, run_append_of_all hdigits hrest', List.drop_left,
    numberTail_append_gap hgap hF hends (by omega)]
  simp only [List.length_append, Nat.add_assoc]

omit hgap hF

theorem measure_tick (h : startsWith isBaseStart cs = true) :
    measure '\'' cs = (.lexeme .number, basedLength cs) := by
  have hdigit : ¬ '\''.isDigit = true := by decide
  have hword : ¬isWordStart '\'' = true := by decide
  simp [measure, h, hdigit, hword, isAsciiBlank]

theorem isWordStart_of_isDigit (hc : c.isDigit = true) : isWordStart c = false := by
  simp only [Char.isDigit, Bool.and_eq_true, decide_eq_true_eq, UInt32.le_iff_toNat_le] at hc
  obtain ⟨hlow, hhigh⟩ := hc
  have hunderscore : c ≠ '_' := by
    rintro rfl
    exact absurd hhigh (by decide)
  simp at hlow hhigh
  simp [isWordStart, Char.isAlpha, Char.isUpper, Char.isLower, UInt32.le_iff_toNat_le, hunderscore]
  omega

theorem measure_digit (hc : c.isDigit = true) (cs : List Char) :
    measure c cs = (.lexeme .number, numberLength cs) := by
  have hne : ∀ d, d.isDigit = false → c ≠ d := by
    rintro d hd rfl
    rw [hc] at hd
    cases hd
  have hblank : isAsciiBlank c = false := by
    simp [isAsciiBlank, hne ' ' rfl, hne '\t' rfl, hne '\n' rfl, hne '\x0c' rfl, hne '\r' rfl]
  simp [measure, hblank, hne '/' rfl, hne '\x60' rfl, isWordStart_of_isDigit hc, hne '\\' rfl,
    hne '$' rfl, hc]

/-- A number starts with a digit or with the tick of its base. -/
theorem measure_number (h : (measure c cs).1 = .lexeme .number) :
    (c.isDigit = true ∧ ∀ G, measure c G = (.lexeme .number, numberLength G)) ∨
      c = '\'' ∧ startsWith isBaseStart cs = true := by
  have hopens := measure_opens c cs
  rw [h] at hopens
  rcases Bool.or_eq_true_iff.1 hopens with hdigit | htick
  · exact .inl ⟨hdigit, measure_digit hdigit⟩
  · obtain rfl := beq_iff_eq.1 htick
    refine .inr ⟨rfl, ?_⟩
    rcases hbase : startsWith isBaseStart cs with _ | _
    · have hmark : measureMark '\'' cs = (.malformed (.unrecognized '\''), 0) := rfl
      have hword : isWordStart '\'' = false := rfl
      simp [measure, isAsciiBlank, hword, hbase, hmark] at h
    · rfl

/-- A number that ends in its base goes on over a gap, and with the digits behind it. -/
theorem measure_append_gap (h : measure c cs = (.lexeme .number, cs.length))
    (hends : endsInBase (c :: cs) = true) (hgap : ∀ c ∈ gap, isGap c = true)
    (hF : startsWith isGap F = false) :
    measure c (cs ++ (gap ++ F)) = (.lexeme .number, (cs ++ gap).length + run isBasedDigit F) := by
  rcases measure_number (congrArg Prod.fst h) with ⟨hstart, hmeasure⟩ | ⟨rfl, hstart⟩
  · have hne : ∀ d ∈ [c], d ≠ '\'' := by
      intro d hd
      obtain rfl := List.mem_singleton.1 hd
      rintro rfl
      exact absurd hstart (by decide)
    have hends' := endsInBase_append hne cs
    rw [List.singleton_append, hends] at hends'
    rw [hmeasure] at h
    rw [hmeasure, numberLength_append_gap hgap hF hends'.symm (congrArg Prod.snd h)]
  · have hnil : cs ≠ [] := by
      rintro rfl
      cases hstart
    have hstart' : startsWith isBaseStart (cs ++ (gap ++ F)) = true := by
      rw [startsWith_append_of_ne_nil hnil [], List.append_nil]
      exact hstart
    rw [endsInBase_tick] at hends
    rw [measure_tick hstart', basedLength_append_gap hgap hF hends]

/-! ## Padding as what follows -/

theorem mayReplace_nil_iff : MayReplace [] F ↔
    startsWith joins F = false ∧ startsBase F = false ∧ startsFraction F = false := by
  constructor
  · rintro ⟨⟨hhead, hfraction⟩, hbase⟩
    refine ⟨?_, by simpa [startsBase] using hbase, by simpa [startsFraction] using hfraction⟩
    rcases F with _ | ⟨c, F⟩
    · rfl
    · simpa using hhead
  · rintro ⟨hhead, hbase, hfraction⟩
    exact ⟨⟨by simp [hhead], by simp [hfraction]⟩, by simp [hbase]⟩

/-- Spaces and what is no tick behind them go on with no lexeme, if there is a space or what follows
joins no lexeme. -/
theorem mayReplace_nil_spaces {k : Nat} (hc : 0 < k ∨ joins c = false) (htick : c ≠ '\'')
    (hgap : isGap c = false) (hpoint : c ≠ '.') :
    MayReplace [] (List.replicate k ' ' ++ c :: F) := by
  have hrun : run isGap (List.replicate k ' ' ++ c :: F) = k := by
    have hspaces : ∀ d ∈ List.replicate k ' ', isGap d = true := fun d hd => by
      rw [List.eq_of_mem_replicate hd]
      rfl
    rw [run_append_of_all hspaces (by simpa [startsWith] using hgap), List.length_replicate]
  refine mayReplace_nil_iff.2 ⟨?_, ?_, ?_⟩
  · rcases k with _ | k
    · exact hc.resolve_left (Nat.lt_irrefl 0)
    · rfl
  · rw [startsBase, hrun, List.drop_append_of_le_length (by simp), List.drop_replicate,
      Nat.sub_self, List.replicate_zero, List.nil_append]
    simp [htick]
  · rcases k with _ | k
    · simp [startsFraction, hpoint]
    · rfl

end Segment

open Segment

/-! ## Excerpts -/

/-- Whether the last token of a text is an escaped name. -/
def endsInEscapedName (cs : List Char) : Bool :=
  (lexemes cs).getLast?.any (·.kind == .escapedIdentifier)

/-- A number at the end is kept by stripping. -/
theorem Stripped.ofTokens_concat_eq_iff {P : Type} {us ts : List (Lexeme P)} {t : Lexeme P}
    (ht : t.kind = .number) : ofTokens (us ++ [t]) = ⟨ts ++ [t], []⟩ ↔ ofTokens us = ⟨ts, []⟩ := by
  have hcloses : ∀ u ∈ (ofTokens us).unclosed, closes u.1 [t] = false := fun u _ => by
    simp [closes, ht]
  have hsingle : ofTokens [t] = ⟨[t], []⟩ := by
    rw [ofTokens, ofTokensFrom_cons_of_not_open (by simp [ht])]
    rfl
  rw [ofTokens_append hcloses, hsingle, append, List.append_nil]
  rcases ofTokens us with ⟨tokens, unclosed⟩
  simp

namespace Excerpt

variable {v : List Char} {run : List (Lexeme Site)}

/-- An excerpt ends with its last token. -/
theorem exists_last (h : Excerpt v run) :
    ∃ segments s ts t, split v = segments ++ [s] ∧ run = ts ++ [t] ∧
    s.kind = .lexeme t.kind ∧ t.place = ⟨s.text, []⟩ := by
  obtain ⟨e, he, -, -⟩ := h.extent
  rcases List.eq_nil_or_concat run with rfl | ⟨ts, t, rfl⟩
  · cases he
  obtain ⟨s, hs, hkind, hplace⟩ := h.ends t (by simp)
  obtain ⟨segments, hsegments⟩ := List.getLast?_eq_some_iff.1 hs
  refine ⟨segments, s, ts, t, hsegments, by simp, ?_, by simpa using hplace⟩
  have hfault := h.faultless s (by rw [hsegments]; simp)
  rcases s with ⟨_ | closed | _ | kind | fault, text⟩
  · cases hkind
  · cases hkind
  · cases hkind
  · exact congrArg _ (Option.some.inj hkind)
  · cases hfault

/-- The cut of a text that ends in a number's base, with a gap behind it. -/
theorem split_append_gap {segments : List Segment} {s : Segment} {gap : List Char}
    (hfaultless : ∀ u ∈ split v, u.kind.isFault = false) (hsplit : split v = segments ++ [s])
    (hkind : s.kind = .lexeme .number) (hends : endsInBase s.text = true)
    (hgap : ∀ c ∈ gap, isGap c = true) :
    split (v ++ gap) = segments ++ [⟨.lexeme .number, s.text ++ gap⟩] := by
  have htext : v = segments.flatMap Segment.text ++ s.text := by
    have := flatMap_text_split v
    rw [hsplit] at this
    simpa using this.symm
  have hfit := fit_split v
  rw [hsplit, fit_append] at hfit
  obtain ⟨hbefore, ⟨c, cs, hcs, hmeasure⟩, -⟩ := hfit
  rw [hkind, List.flatMap_nil, List.append_nil, List.append_nil] at hmeasure
  rw [hcs] at hends
  have hlast : Fits [] ⟨.lexeme .number, s.text ++ gap⟩ :=
    ⟨c, cs ++ gap, by rw [hcs, List.cons_append],
      by rw [List.append_assoc]; exact measure_append_gap hmeasure hends hgap rfl⟩
  -- the number starts as it did, so the segments before it end as they did
  have hreplace : MayReplace s.text (s.text ++ gap) := by
    have hnil : MayReplace [] gap := by
      rcases gap with _ | ⟨d, gap⟩
      · exact mayReplace_nil []
      · have hd := hgap d (List.mem_cons_self ..)
        simp only [isGap, Bool.or_eq_true, beq_iff_eq] at hd
        refine mayReplace_nil_iff.2 ⟨?_, ?_, ?_⟩
        · rcases hd with rfl | rfl <;> rfl
        · rw [startsBase, run_eq_length hgap, List.drop_length]
        · rcases hd with rfl | rfl <;> rfl
    have := hnil.append s.text
    rwa [List.append_nil] at this
  have hbefore' : Fit (s.text ++ gap) segments := by
    rw [List.flatMap_singleton, List.append_nil] at hbefore
    refine hbefore.congr hreplace fun u hu => tolerates_of_head? (by rw [hcs]; rfl) fun hunclosed =>
      ?_
    have := hfaultless u (by rw [hsplit]; exact List.mem_append_left _ (List.mem_of_getLast? hu))
    rw [hunclosed] at this
    cases this
  have hwhole : Fit [] (segments ++ [⟨.lexeme .number, s.text ++ gap⟩]) :=
    fit_append.2 ⟨by simpa using hbefore', hlast, trivial⟩
  have := hwhole.split_flatMap_text
  rwa [List.flatMap_append, List.flatMap_singleton, ← List.append_assoc, ← htext] at this

/-- An excerpt that ends in a number's base takes a gap in, and reads as the same kinds of token. -/
theorem append_gap (h : Excerpt v run) {segments : List Segment} {s : Segment} {gap : List Char}
    (hsplit : split v = segments ++ [s]) (hkind : s.kind = .lexeme .number)
    (hends : endsInBase s.text = true) (hgap : ∀ c ∈ gap, isGap c = true) :
    ∃ run', Excerpt (v ++ gap) run' ∧ run'.map Lexeme.kind = run.map Lexeme.kind := by
  have hsplit' := split_append_gap h.faultless hsplit hkind hends hgap
  obtain ⟨segments', s', ts, t, hsplit'', rfl, hs', hplace⟩ := h.exists_last
  obtain ⟨rfl, rfl⟩ : segments' = segments ∧ s' = s := by
    rw [hsplit''] at hsplit
    simpa using hsplit
  rw [hkind] at hs'
  obtain ⟨kind, place⟩ := t
  obtain rfl : TokenKind.number = kind := SegmentKind.lexeme.inj hs'
  obtain rfl : place = ⟨s'.text, []⟩ := hplace
  have hcut : ∀ text, Segment.lexemes [] (segments' ++ [⟨.lexeme .number, text⟩]) =
      Segment.lexemes text segments' ++ [⟨.number, ⟨text, []⟩⟩] := fun text => by
    rw [lexemes_append]
    simp [Segment.lexemes, SegmentKind.tokenKind?]
  have hs : s' = ⟨.lexeme .number, s'.text⟩ := by rw [← hkind]
  -- the last token is a number before and after, and stripping keeps it
  have hbefore : Stripped.ofTokens (Segment.lexemes s'.text segments') = ⟨ts, []⟩ := by
    have hread := h.read
    rwa [Stripped.read, lexemes, hsplit, hs, hcut, Stripped.ofTokens_concat_eq_iff rfl] at hread
  have hread' : Stripped.read (v ++ gap) =
      ⟨ts.map (Lexeme.map (Site.append gap)) ++ [⟨.number, ⟨s'.text ++ gap, []⟩⟩], []⟩ := by
    rw [Stripped.read, lexemes, hsplit', hcut, lexemes_append_behind,
      Stripped.ofTokens_concat_eq_iff rfl, Stripped.ofTokens_map, hbefore]
    rfl
  refine ⟨_, ⟨⟨?_, hread'⟩, ?_, ?_⟩, ?_⟩
  · intro u hu
    rw [hsplit'] at hu
    rcases List.mem_append.1 hu with hu | hu
    · exact h.faultless u (by rw [hsplit]; exact List.mem_append_left _ hu)
    · obtain rfl := List.mem_singleton.1 hu
      rfl
  · obtain ⟨e, he, hhere, -⟩ := h.extent
    rcases ts with _ | ⟨u, ts⟩
    · obtain rfl := Option.some.inj he
      exact ⟨_, rfl, congrArg (· ++ gap) hhere, rfl⟩
    · obtain rfl := Option.some.inj he
      exact ⟨_, rfl, congrArg (· ++ gap) hhere, by simp⟩
  · intro u hu
    rw [hsplit']
    refine ⟨_, List.getLast?_concat .., ?_⟩
    obtain rfl : _ = u := by simpa using hu
    exact ⟨rfl, by simp⟩
  · simp [Lexeme.map]

/-! ## Values in front of padding -/

/-- A value in front of padding and a semicolon: some of the padding may become part of the value,
and what it ends with then tolerates the rest. -/
theorem exists_padded (h : Excerpt v run) {k : Nat} (hk : endsInEscapedName v = true → 0 < k) :
    ∃ i j run', i + j = k ∧ Excerpt (v ++ List.replicate i ' ') run' ∧
      run'.map Lexeme.kind = run.map Lexeme.kind ∧
      ∀ G, ∀ s ∈ (split (v ++ List.replicate i ' ')).getLast?,
        s.Tolerates [] (List.replicate j ' ' ++ ';' :: G) := by
  obtain ⟨segments, s, ts, t, hsplit, rfl, hkind, hplace⟩ := h.exists_last
  by_cases hends : s.kind = .lexeme .number ∧ endsInBase s.text = true
  · -- all of the padding goes to the number
    have hspaces : ∀ c ∈ List.replicate k ' ', isGap c = true := fun c hc => by
      rw [List.eq_of_mem_replicate hc]
      rfl
    obtain ⟨run', hrun', hkinds⟩ := h.append_gap hsplit hends.1 hends.2 hspaces
    refine ⟨k, 0, run', rfl, hrun', hkinds, fun G u hu => ?_⟩
    rw [split_append_gap h.faultless hsplit hends.1 hends.2 hspaces, List.getLast?_concat] at hu
    obtain rfl := Option.some.inj hu
    rintro - ⟨⟩
  · refine ⟨0, k, ts ++ [t], Nat.zero_add k, by rwa [List.replicate_zero, List.append_nil], rfl,
      fun G u hu => ?_⟩
    rw [List.replicate_zero, List.append_nil, hsplit, List.getLast?_concat] at hu
    obtain rfl := Option.some.inj hu
    unfold Tolerates
    rw [hkind]
    split
    · cases ‹SegmentKind.lexeme _ = _›
    · cases ‹SegmentKind.lexeme _ = _›
    · cases ‹SegmentKind.lexeme _ = _›
    · cases ‹SegmentKind.lexeme _ = _›
    · exact fun hbase => absurd ⟨hkind.trans ‹_›, hbase⟩ hends
    · -- an escaped name is ended by the first space
      have hescaped : endsInEscapedName v = true := by
        have hlast : t.kind = .escapedIdentifier := SegmentKind.lexeme.inj ‹_›
        rw [endsInEscapedName, lexemes, hsplit, lexemes_append, Segment.lexemes, hkind, hlast]
        simp [SegmentKind.tokenKind?, Segment.lexemes]
      obtain ⟨k, rfl⟩ := Nat.exists_eq_succ_of_ne_zero (Nat.ne_of_gt (hk hescaped))
      rintro ⟨⟩
    · cases ‹SegmentKind.lexeme _ = _›
    · cases ‹SegmentKind.lexeme _ = _›
    · trivial
    · trivial

end Excerpt

end VerilogScaffold
