import VerilogScaffold.Proofs.Event

/-!
# Sources are cut line by line

No segment except a blank, an unclosed comment, an unclosed string or a continued directive reaches
over the newline that ends a text. Text that ends with neither of the last three is cut the same
whatever stands on the lines after it, and those are cut as if they stood alone:
`eventsFrom_append_newline`.

## Shape of the proof

`Segment.measure` decides what a segment is and where it ends from the characters it starts with.
Each of the measures it is put together from is first shown to be the same with a newline and more
text behind (the lemmas that end in `append_newline`), because the newline satisfies none of the
tests that the measures repeat. Blanks are the exception: they do run over the newline, and
`eventsFrom_cons_blank` says that this changes no event.
-/

namespace VerilogScaffold

/-! ## Ends of lines -/

/-- Whether the last character of a text that is not blank is a backslash. -/
def endsInBackslash (cs : List Char) : Bool :=
  (cs.reverse.dropWhile Text.isAsciiBlank).head? == some '\\'

theorem endsInBackslash_append {cs : List Char} (h : endsInBackslash cs = true)
    (before : List Char) : endsInBackslash (before ++ cs) = true := by
  rw [endsInBackslash, List.reverse_append, List.dropWhile_append]
  split
  · rename_i hnil
    rw [endsInBackslash, List.isEmpty_iff.1 hnil] at h
    simp at h
  · rename_i hcons
    obtain ⟨c, rest, hdrop⟩ : ∃ c rest, cs.reverse.dropWhile Text.isAsciiBlank = c :: rest := by
      rcases hdrop : cs.reverse.dropWhile Text.isAsciiBlank with _ | ⟨c, rest⟩
      · exact absurd (by rw [hdrop]; rfl) hcons
      · exact ⟨c, rest, rfl⟩
    rw [endsInBackslash, hdrop] at h
    rw [hdrop]
    exact h

namespace Segment

variable {p : Char → Bool} (q : List Char)

/-! ## Measures that stop at a newline -/

theorem run_le_length (p : Char → Bool) (cs : List Char) : run p cs ≤ cs.length :=
  (List.takeWhile_sublist p).length_le

theorem take_run (p : Char → Bool) (cs : List Char) : cs.take (run p cs) = cs.takeWhile p :=
  (List.prefix_iff_eq_take.1 (List.takeWhile_prefix p)).symm

theorem takeWhile_append_newline (h : p '\n' = false) (cs : List Char) :
    (cs ++ '\n' :: q).takeWhile p = cs.takeWhile p := by
  induction cs with
  | nil => simp [h]
  | cons c cs ih =>
    rw [List.cons_append, List.takeWhile_cons, List.takeWhile_cons, ih]

theorem run_append_newline (h : p '\n' = false) (cs : List Char) :
    run p (cs ++ '\n' :: q) = run p cs := by
  rw [run, takeWhile_append_newline q h, run]

theorem startsWith_append_newline (h : p '\n' = false) (cs : List Char) :
    startsWith p (cs ++ '\n' :: q) = startsWith p cs := by
  cases cs with
  | nil => simp [startsWith, h]
  | cons c cs => rfl

/-- An optional mark at the start of a text takes no more than is there. -/
theorem length_mark_le (p : Char → Bool) (cs : List Char) :
    (if startsWith p cs then 1 else 0) ≤ cs.length := by
  cases cs with
  | nil => simp [startsWith]
  | cons c cs => split <;> simp

theorem drop_append_newline {n : Nat} {cs : List Char} (h : n ≤ cs.length) :
    (cs ++ '\n' :: q).drop n = cs.drop n ++ '\n' :: q :=
  List.drop_append_of_le_length h

theorem drop_run_append_newline (h : p '\n' = false) (cs : List Char) :
    (cs ++ '\n' :: q).drop (run p (cs ++ '\n' :: q)) = cs.drop (run p cs) ++ '\n' :: q := by
  rw [run_append_newline q h, drop_append_newline q (run_le_length p cs)]

/-! ### Comments and directives -/

theorem commentEnd?_append {n : Nat} {cs : List Char} (h : commentEnd? cs = some n)
    (more : List Char) : commentEnd? (cs ++ more) = some n := by
  fun_induction commentEnd? cs generalizing n with
  | case1 cs => simpa [commentEnd?] using h
  | case2 c cs hmark ih =>
    obtain ⟨m, hm, rfl⟩ := Option.map_eq_some_iff.1 h
    rw [List.cons_append, commentEnd?, ih hm]
    · rfl
    · -- the mark would have to be cut in two by the end of the text
      rintro rest rfl hrest
      rcases cs with _ | ⟨d, cs⟩
      · simp [commentEnd?] at hm
      · exact hmark cs rfl (by rw [(List.cons.inj hrest).1])
  | case3 => simp at h

/-- Whether a newline after some text continues a directive that the text is part of. -/
def continuedAfter (continued : Bool) : List Char → Bool
  | [] => continued
  | c :: cs => continuedAfter (if Text.isAsciiBlank c then continued else c == '\\') cs

theorem endsInBackslash_concat (before : List Char) (c : Char) :
    endsInBackslash (before ++ [c]) = if Text.isAsciiBlank c then endsInBackslash before
      else c == '\\' := by
  rw [endsInBackslash, List.reverse_append, List.reverse_singleton, List.singleton_append,
    List.dropWhile_cons]
  split
  · rfl
  · rfl

theorem endsInBackslash_append_eq (before line : List Char) :
    endsInBackslash (before ++ line) = continuedAfter (endsInBackslash before) line := by
  induction line generalizing before with
  | nil => rw [List.append_nil, continuedAfter]
  | cons c line ih =>
    have hcut : before ++ c :: line = before ++ [c] ++ line := by
      rw [List.append_assoc, List.singleton_append]
    rw [hcut, ih, endsInBackslash_concat, continuedAfter]

theorem lineEnd_append_newline {continued : Bool} {cs : List Char}
    (h : continuedAfter continued cs = false) :
    lineEnd continued (cs ++ '\n' :: q) = lineEnd continued cs := by
  induction cs generalizing continued with
  | nil =>
    rw [continuedAfter] at h
    simp [lineEnd, h]
  | cons c cs ih =>
    rw [continuedAfter] at h
    rw [List.cons_append, lineEnd, lineEnd]
    by_cases hnewline : c = '\n'
    · subst hnewline
      rw [if_pos (by decide)] at h
      cases continued
      · rfl
      · simp [ih h]
    · rw [if_neg hnewline, if_neg hnewline]
      by_cases hblank : Text.isAsciiBlank c = true
      · rw [if_pos hblank] at h ⊢
        rw [if_pos hblank, ih h]
      · rw [if_neg hblank] at h ⊢
        rw [if_neg hblank, ih h]

theorem lineEnd_le_length (continued : Bool) (cs : List Char) :
    lineEnd continued cs ≤ cs.length := by
  fun_induction lineEnd continued cs with
  | case1 => exact Nat.le_refl 0
  | case2 cs ih => exact Nat.succ_le_succ ih
  | case3 => exact Nat.zero_le _
  | case4 continued c cs hnewline hblank ih => exact Nat.succ_le_succ ih
  | case5 continued c cs hnewline hblank ih => exact Nat.succ_le_succ ih

theorem extent_measure_append_newline {cs : List Char} (h : endsInBackslash cs = false)
    (extent : DirectiveExtent) : extent.measure (cs ++ '\n' :: q) = extent.measure cs := by
  cases extent with
  | word => rfl
  | wordAndName =>
    rw [DirectiveExtent.measure, drop_run_append_newline q (by decide),
      run_append_newline q (by decide), run_append_newline q (by decide)]
    rfl
  | line => exact lineEnd_append_newline q ((endsInBackslash_append_eq [] cs).symm.trans h)

theorem extent_measure_le_length (extent : DirectiveExtent) (cs : List Char) :
    extent.measure cs ≤ cs.length := by
  cases extent with
  | word => exact Nat.zero_le _
  | wordAndName =>
    have h1 := run_le_length isGap cs
    have h2 := run_le_length isWordChar (cs.drop (run isGap cs))
    rw [List.length_drop] at h2
    simp only [DirectiveExtent.measure]
    omega
  | line => exact lineEnd_le_length false cs

theorem measureBacktick_append_newline {cs : List Char} (h : endsInBackslash cs = false) :
    measureBacktick (cs ++ '\n' :: q) = measureBacktick cs := by
  have hword := run_le_length isWordChar cs
  have hrest : endsInBackslash (cs.drop (run isWordChar cs)) = false := by
    rcases hends : endsInBackslash (cs.drop (run isWordChar cs)) with _ | _
    · rfl
    · have := endsInBackslash_append hends (cs.take (run isWordChar cs))
      rw [List.take_append_drop, h] at this
      exact this.symm
  rw [measureBacktick, run_append_newline q (by decide), List.take_append_of_le_length hword,
    drop_append_newline q hword, measureBacktick]
  split <;> simp_all [extent_measure_append_newline]

/-! ### Lexemes -/

theorem stringEnd_append_newline {cs : List Char} (h : (stringEnd cs).2 = true) :
    stringEnd (cs ++ '\n' :: q) = stringEnd cs := by
  fun_induction stringEnd cs with
  | case1 => simp at h
  | case2 c cs n closed hrest ih =>
    simp only [List.cons_append, stringEnd]
    rw [ih (by simpa [hrest] using h), hrest]
  | case3 => simp at h
  | case4 cs => simp [stringEnd]
  | case5 c cs hescape hnewline hquote n closed hrest ih =>
    rw [List.cons_append, stringEnd, if_neg hnewline, if_neg hquote,
      ih (by simpa [hrest] using h), hrest]
    -- a backslash at the very end would leave the literal open
    rintro d ds rfl hcs
    rcases cs with _ | ⟨e, cs⟩
    · rw [stringEnd, Prod.mk.injEq] at hrest
      exact absurd (hrest.2.trans h) (by decide)
    · exact hescape e cs rfl rfl

theorem stringEnd_le_length (cs : List Char) : (stringEnd cs).1 ≤ cs.length := by
  fun_induction stringEnd cs with
  | case1 => exact Nat.zero_le _
  | case2 c cs n closed hrest ih =>
    rw [hrest] at ih
    exact Nat.add_le_add_right ih 2
  | case3 => exact Nat.zero_le _
  | case4 => exact Nat.succ_le_succ (Nat.zero_le _)
  | case5 c cs hescape hnewline hquote n closed hrest ih =>
    rw [hrest] at ih
    exact Nat.succ_le_succ ih

theorem basedLength_append_newline (cs : List Char) :
    basedLength (cs ++ '\n' :: q) = basedLength cs := by
  rw [basedLength, startsWith_append_newline q (by decide), basedLength]
  rw [drop_append_newline q (length_mark_le isSignMark cs)]
  rcases cs.drop (if startsWith isSignMark cs then 1 else 0) with _ | ⟨c, rest⟩
  · simp [isRadix]
  · simp only [List.cons_append]
    rw [drop_run_append_newline q (by decide), run_append_newline q (by decide),
      run_append_newline q (by decide)]

theorem fractionLength_append_newline (cs : List Char) :
    fractionLength (cs ++ '\n' :: q) = fractionLength cs := by
  rcases cs with _ | ⟨c, cs⟩
  · rfl
  · by_cases hpoint : c = '.'
    · subst hpoint
      simp only [List.cons_append, fractionLength]
      rw [startsWith_append_newline q (by decide), run_append_newline q (by decide)]
    · simp [fractionLength, hpoint]

theorem exponentLength_append_newline (cs : List Char) :
    exponentLength (cs ++ '\n' :: q) = exponentLength cs := by
  rcases cs with _ | ⟨c, cs⟩
  · simp [exponentLength]
  · simp only [List.cons_append, exponentLength]
    rw [startsWith_append_newline q (by decide), drop_append_newline q (length_mark_le _ cs),
      run_append_newline q (by decide)]

theorem basedLength_le_length (cs : List Char) : basedLength cs ≤ cs.length := by
  have hsign := length_mark_le isSignMark cs
  have hrest := cs.length_drop (i := if startsWith isSignMark cs then 1 else 0)
  rw [basedLength]
  rcases hdrop : cs.drop (if startsWith isSignMark cs then 1 else 0) with _ | ⟨c, rest⟩
  · simpa [hdrop] using hsign
  · rw [hdrop, List.length_cons] at hrest
    have hgap := run_le_length isGap rest
    have hdigits := run_le_length isBasedDigit (rest.drop (run isGap rest))
    rw [List.length_drop] at hdigits
    simp only
    split <;> omega

theorem fractionLength_le_length (cs : List Char) : fractionLength cs ≤ cs.length := by
  fun_cases fractionLength cs with
  | case1 cs =>
    have := run_le_length isDecimal cs
    rw [List.length_cons]
    omega
  | case2 => exact Nat.zero_le _
  | case3 => exact Nat.zero_le _

theorem exponentLength_le_length (cs : List Char) : exponentLength cs ≤ cs.length := by
  rcases cs with _ | ⟨c, cs⟩
  · exact Nat.le_refl _
  · have hsign := length_mark_le (fun d => d == '+' || d == '-') cs
    have hdigits := run_le_length isDecimal
      (cs.drop (if startsWith (fun d => d == '+' || d == '-') cs then 1 else 0))
    rw [List.length_drop] at hdigits
    simp only [exponentLength, List.length_cons]
    split <;> omega

/-- What belongs to a number after its digits: a base and a value, or a fraction and an exponent. -/
def numberTail (rest : List Char) : Nat :=
  match rest.drop (run isGap rest) with
  | '\'' :: base :: value =>
    if isBaseStart base then run isGap rest + 1 + basedLength (base :: value)
    else fractionLength rest + exponentLength (rest.drop (fractionLength rest))
  | _ => fractionLength rest + exponentLength (rest.drop (fractionLength rest))

theorem numberLength_eq (cs : List Char) :
    numberLength cs = run isDecimal cs + numberTail (cs.drop (run isDecimal cs)) := by
  simp only [numberLength, numberTail]
  rcases (cs.drop (run isDecimal cs)).drop (run isGap (cs.drop (run isDecimal cs))) with
    _ | ⟨tick, _ | ⟨base, value⟩⟩
  · exact Nat.add_assoc _ _ _
  · by_cases htick : tick = '\'' <;> simp [htick, Nat.add_assoc]
  · by_cases htick : tick = '\''
    · subst htick
      simp only
      split <;> omega
    · simp [htick, Nat.add_assoc]

theorem numberTail_append_newline (rest : List Char) :
    numberTail (rest ++ '\n' :: q) = numberTail rest := by
  have hunsized : fractionLength (rest ++ '\n' :: q) +
      exponentLength ((rest ++ '\n' :: q).drop (fractionLength (rest ++ '\n' :: q))) =
        fractionLength rest + exponentLength (rest.drop (fractionLength rest)) := by
    rw [fractionLength_append_newline, drop_append_newline q (fractionLength_le_length rest),
      exponentLength_append_newline]
  simp only [numberTail, hunsized]
  rw [drop_run_append_newline q (by decide), run_append_newline q (by decide)]
  rcases rest.drop (run isGap rest) with _ | ⟨tick, _ | ⟨base, value⟩⟩
  · rfl
  · by_cases htick : tick = '\''
    · subst htick
      rfl
    · simp [htick]
  · by_cases htick : tick = '\''
    · subst htick
      have hbased := basedLength_append_newline q (base :: value)
      rw [List.cons_append] at hbased
      simp only [List.cons_append, hbased]
    · simp [htick]

theorem numberLength_append_newline (cs : List Char) :
    numberLength (cs ++ '\n' :: q) = numberLength cs := by
  rw [numberLength_eq, drop_run_append_newline q (by decide), run_append_newline q (by decide),
    numberTail_append_newline, ← numberLength_eq]

theorem numberLength_le_length (cs : List Char) : numberLength cs ≤ cs.length := by
  have htail : ∀ rest : List Char, numberTail rest ≤ rest.length := by
    intro rest
    have hfraction := fractionLength_le_length rest
    have hexponent := exponentLength_le_length (rest.drop (fractionLength rest))
    rw [List.length_drop] at hexponent
    rw [numberTail]
    split
    · rename_i base value hdrop
      have hvalue := basedLength_le_length (base :: value)
      have hlength := congrArg List.length hdrop
      rw [List.length_drop, List.length_cons] at hlength
      split <;> omega
    · omega
  have hdigits := run_le_length isDecimal cs
  have := htail (cs.drop (run isDecimal cs))
  rw [List.length_drop] at this
  rw [numberLength_eq]
  omega

theorem measureMark_append_newline (c : Char) (cs : List Char) :
    measureMark c (cs ++ '\n' :: q) = measureMark c cs := by
  have hrun : run (· == '=') (cs ++ '\n' :: q) = run (· == '=') cs :=
    run_append_newline q (by decide) cs
  have hstarts : startsWith (· == '=') (cs ++ '\n' :: q) = startsWith (· == '=') cs :=
    startsWith_append_newline q (by decide) cs
  simp only [measureMark, hrun, hstarts]

theorem measureEscaped_append_newline (cs : List Char) :
    measureEscaped (cs ++ '\n' :: q) = measureEscaped cs := by
  rw [measureEscaped, run_append_newline q (by decide), measureEscaped]

theorem measureString_append_newline {cs : List Char}
    (h : (measureString cs).1 ≠ .malformed .unterminatedString) :
    measureString (cs ++ '\n' :: q) = measureString cs := by
  rw [measureString, stringEnd_append_newline]
  · rfl
  · rw [measureString] at h
    rcases hclosed : (stringEnd cs).2 with _ | _
    · simp [hclosed] at h
    · rfl

/-- What a segment is, and where it ends, does not depend on the lines after it. -/
theorem measure_append_newline {c : Char} {cs : List Char}
    (hblank : Text.isAsciiBlank c = false) (hends : endsInBackslash (c :: cs) = false)
    (hcomment : (measure c cs).1 ≠ .comment false)
    (hstring : (measure c cs).1 ≠ .malformed .unterminatedString) :
    measure c (cs ++ '\n' :: q) = measure c cs := by
  have hrest : endsInBackslash cs = false := by
    rcases hcs : endsInBackslash cs with _ | _
    · rfl
    · exact (endsInBackslash_append hcs [c]).symm.trans hends
  have hslash := startsWith_append_newline q (p := (· == '/')) (by decide) cs
  have hstar := startsWith_append_newline q (p := (· == '*')) (by decide) cs
  have hbase := startsWith_append_newline q (p := isBaseStart) (by decide) cs
  fun_cases measure c cs with
  | case1 h0 => exact absurd h0 (by simp [hblank])
  | case2 h0 h1 =>
    rw [measure, hslash, if_neg h0, if_pos h1, run_append_newline q (by decide)]
  | case3 h0 h1 h2 n hn =>
    have hlength := length_mark_le (· == '*') cs
    rw [if_pos h2.2] at hlength
    rw [measure, hslash, hstar, if_neg h0, if_neg h1, if_pos h2, drop_append_newline q hlength,
      commentEnd?_append hn]
  | case4 h0 h1 h2 hn =>
    exact absurd (by rw [measure, if_neg h0, if_neg h1, if_pos h2, hn]) hcomment
  | case5 h0 h1 h2 h3 =>
    rw [measure, hslash, hstar, if_neg h0, if_neg h1, if_neg h2, if_pos h3,
      measureBacktick_append_newline q hrest]
  | case6 h0 h1 h2 h3 h4 =>
    rw [measure, hslash, hstar, if_neg h0, if_neg h1, if_neg h2, if_neg h3, if_pos h4,
      takeWhile_append_newline q (by decide), run_append_newline q (by decide)]
  | case7 h0 h1 h2 h3 h4 h5 =>
    rw [measure, hslash, hstar, if_neg h0, if_neg h1, if_neg h2, if_neg h3, if_neg h4, if_pos h5,
      measureEscaped_append_newline]
  | case8 h0 h1 h2 h3 h4 h5 h6 =>
    rw [measure, hslash, hstar, if_neg h0, if_neg h1, if_neg h2, if_neg h3, if_neg h4, if_neg h5,
      if_pos h6, run_append_newline q (by decide)]
  | case9 h0 h1 h2 h3 h4 h5 h6 h7 =>
    rw [measure, hslash, hstar, if_neg h0, if_neg h1, if_neg h2, if_neg h3, if_neg h4, if_neg h5,
      if_neg h6, if_pos h7, numberLength_append_newline]
  | case10 h0 h1 h2 h3 h4 h5 h6 h7 h8 =>
    rw [measure, hslash, hstar, hbase, if_neg h0, if_neg h1, if_neg h2, if_neg h3, if_neg h4,
      if_neg h5, if_neg h6, if_neg h7, if_pos h8, basedLength_append_newline]
  | case11 h0 h1 h2 h3 h4 h5 h6 h7 h8 h9 =>
    have hmeasure : measure c cs = measureString cs := by
      rw [measure, if_neg h0, if_neg h1, if_neg h2, if_neg h3, if_neg h4, if_neg h5, if_neg h6,
        if_neg h7, if_neg h8, if_pos h9]
    rw [measure, hslash, hstar, hbase, if_neg h0, if_neg h1, if_neg h2, if_neg h3, if_neg h4,
      if_neg h5, if_neg h6, if_neg h7, if_neg h8, if_pos h9,
      measureString_append_newline q (hmeasure ▸ hstring)]
  | case12 h0 h1 h2 h3 h4 h5 h6 h7 h8 h9 =>
    rw [measure, hslash, hstar, hbase, if_neg h0, if_neg h1, if_neg h2, if_neg h3, if_neg h4,
      if_neg h5, if_neg h6, if_neg h7, if_neg h8, if_neg h9, measureMark_append_newline]

/-! ## A segment ends within its text -/

theorem commentEnd?_le_length {n : Nat} {cs : List Char} (h : commentEnd? cs = some n) :
    n ≤ cs.length := by
  fun_induction commentEnd? cs generalizing n with
  | case1 cs =>
    obtain rfl := Option.some.inj h
    simp
  | case2 c cs hmark ih =>
    obtain ⟨m, hm, rfl⟩ := Option.map_eq_some_iff.1 h
    exact Nat.succ_le_succ (ih hm)
  | case3 => simp at h

theorem measureBacktick_le_length (cs : List Char) : (measureBacktick cs).2 ≤ cs.length := by
  have hword := run_le_length isWordChar cs
  rw [measureBacktick]
  split
  · rename_i extent hextent
    have := extent_measure_le_length extent (cs.drop (run isWordChar cs))
    rw [List.length_drop] at this
    simp only
    omega
  · exact hword

theorem measureEscaped_le_length (cs : List Char) : (measureEscaped cs).2 ≤ cs.length := by
  have hname := run_le_length (fun c => !Text.isAsciiBlank c) cs
  rw [measureEscaped]
  split
  · exact Nat.zero_le _
  · exact hname

theorem measureMark_le_length (c : Char) (cs : List Char) : (measureMark c cs).2 ≤ cs.length := by
  have hrun := run_le_length (· == '=') cs
  fun_cases measureMark c cs with
  | case1 => exact Nat.zero_le _
  | case2 => exact hrun
  | case3 => exact hrun
  | case4 => exact Nat.zero_le _

theorem measure_le_length (c : Char) (cs : List Char) : (measure c cs).2 ≤ cs.length := by
  fun_cases measure c cs with
  | case1 => exact run_le_length _ cs
  | case2 => exact run_le_length _ cs
  | case3 h0 h1 h2 n hn =>
    have hlength := length_mark_le (· == '*') cs
    have := commentEnd?_le_length hn
    rw [if_pos h2.2] at hlength
    rw [List.length_drop] at this
    simp only
    omega
  | case4 => exact Nat.le_refl _
  | case5 => exact measureBacktick_le_length cs
  | case6 => exact run_le_length _ cs
  | case7 => exact measureEscaped_le_length cs
  | case8 => exact run_le_length _ cs
  | case9 => exact numberLength_le_length cs
  | case10 => exact basedLength_le_length cs
  | case11 => exact stringEnd_le_length cs
  | case12 => exact measureMark_le_length c cs

end Segment

/-! ## Events of lines -/

theorem eventsFrom_nil (start : Nat) : eventsFrom start [] = [] := by
  rw [eventsFrom, Segment.split]
  rfl

theorem eventsFrom_cons (start : Nat) (c : Char) (cs : List Char) :
    eventsFrom start (c :: cs) =
      (if (⟨(Segment.measure c cs).1, c :: cs.take (Segment.measure c cs).2⟩ : Segment).isSilent
        then [] else [⟨start,
          ⟨(Segment.measure c cs).1, c :: cs.take (Segment.measure c cs).2⟩⟩]) ++
      eventsFrom (start + Text.byteLength (c :: cs.take (Segment.measure c cs).2))
        (cs.drop (Segment.measure c cs).2) := by
  rw [eventsFrom, Segment.split, Segment.eventsFrom, eventsFrom]
  split <;> rfl

/-- A blank in front of a text moves its events, and changes nothing else. -/
theorem eventsFrom_cons_blank (start : Nat) {c : Char} (hc : Text.isAsciiBlank c = true)
    (cs : List Char) : eventsFrom start (c :: cs) = eventsFrom (start + c.utf8Size) cs := by
  have hmeasure : ∀ ds, Segment.measure c ds = (.blank, Segment.run Text.isAsciiBlank ds) := by
    intro ds
    rw [Segment.measure, if_pos hc]
  rw [eventsFrom_cons, hmeasure]
  rcases cs with _ | ⟨d, ds⟩
  · simp [Segment.isSilent, Segment.run]
  · by_cases hd : Text.isAsciiBlank d = true
    · -- the run of blanks in front of `ds` is one segment, with `c` or without it
      have hrun : Segment.run Text.isAsciiBlank (d :: ds) =
          Segment.run Text.isAsciiBlank ds + 1 := by
        simp [Segment.run, hd]
      have hmeasure' : Segment.measure d ds = (.blank, Segment.run Text.isAsciiBlank ds) := by
        rw [Segment.measure, if_pos hd]
      rw [eventsFrom_cons, hmeasure', hrun]
      simp [Segment.isSilent, Nat.add_assoc]
    · have hrun : Segment.run Text.isAsciiBlank (d :: ds) = 0 := by
        simp [Segment.run, hd]
      rw [hrun]
      simp [Segment.isSilent]

/-- A text whose last segment ends where the text ends, whatever follows on the next line: no
comment and no string is left open, and no backslash continues the line. -/
structure EndsCleanly (cs : List Char) : Prop where
  comment : ∀ e ∈ eventsFrom 0 cs, e.segment.kind ≠ .comment false
  string : ∀ e ∈ eventsFrom 0 cs, e.segment.kind ≠ .malformed .unterminatedString
  backslash : endsInBackslash cs = false

/-- Ending cleanly passes to the rest of a text, once the events of the rest are events of the
whole. -/
theorem EndsCleanly.rest (before : List Char) {cs : List Char} (h : EndsCleanly (before ++ cs))
    (n : Nat) (hevents : ∀ e ∈ eventsFrom n cs, e ∈ eventsFrom 0 (before ++ cs)) :
    EndsCleanly cs where
  comment e he := h.comment (e.shift n) (hevents _ (by
    rw [← Nat.zero_add n, eventsFrom_add, Nat.zero_add]
    exact List.mem_map_of_mem he))
  string e he := h.string (e.shift n) (hevents _ (by
    rw [← Nat.zero_add n, eventsFrom_add, Nat.zero_add]
    exact List.mem_map_of_mem he))
  backslash := by
    rcases hcs : endsInBackslash cs with _ | _
    · rfl
    · exact (endsInBackslash_append hcs before).symm.trans h.backslash

/-- **Lines are cut one after the other.** The events of a text that ends cleanly are followed by
those of the next line, as if it stood alone. -/
theorem eventsFrom_append_newline {cs : List Char} (h : EndsCleanly cs) (start : Nat)
    (q : List Char) :
    eventsFrom start (cs ++ '\n' :: q) =
      eventsFrom start cs ++ eventsFrom (start + Text.byteLength cs + 1) q := by
  -- on the length, since a segment takes any number of characters, and at least one
  induction hn : cs.length using Nat.strongRecOn generalizing cs start with
  | ind n ih =>
    rcases cs with _ | ⟨c, cs⟩
    · rw [List.nil_append, eventsFrom_cons_blank start (by decide), eventsFrom_nil]
      rfl
    · by_cases hc : Text.isAsciiBlank c = true
      · have hcs : EndsCleanly cs := EndsCleanly.rest [c] h c.utf8Size fun e he => by
          rw [List.singleton_append, eventsFrom_cons_blank 0 hc, Nat.zero_add]
          exact he
        rw [List.cons_append, eventsFrom_cons_blank start hc, eventsFrom_cons_blank start hc,
          ih cs.length (by simp [← hn]) hcs _ rfl, Text.byteLength_cons, Nat.add_assoc start]
      · -- the first segment is an event unless it is silent, and a silent one is neither left open
        have hkind : ∀ kind,
            (⟨kind, c :: cs.take (Segment.measure c cs).2⟩ : Segment).isSilent = false →
            (∀ e ∈ eventsFrom 0 (c :: cs), e.segment.kind ≠ kind) →
              (Segment.measure c cs).1 ≠ kind := by
          rintro kind hsilent hevents rfl
          refine hevents ⟨0, ⟨_, c :: cs.take (Segment.measure c cs).2⟩⟩ ?_ rfl
          rw [eventsFrom_cons, hsilent]
          exact List.mem_cons_self ..
        have hmeasure := Segment.measure_append_newline q (by simpa using hc) h.backslash
          (hkind _ rfl h.comment) (hkind _ rfl h.string)
        have hlength := Segment.measure_le_length c cs
        have hcut : (c :: cs.take (Segment.measure c cs).2) ++ cs.drop (Segment.measure c cs).2 =
            c :: cs := by
          rw [List.cons_append, List.take_append_drop]
        have hcs : EndsCleanly (cs.drop (Segment.measure c cs).2) :=
          EndsCleanly.rest (c :: cs.take (Segment.measure c cs).2) (hcut ▸ h) _ fun e he => by
            rw [hcut, eventsFrom_cons]
            exact List.mem_append_right _ (by rwa [Nat.zero_add])
        have hbytes : Text.byteLength (c :: cs) =
            Text.byteLength (c :: cs.take (Segment.measure c cs).2) +
              Text.byteLength (cs.drop (Segment.measure c cs).2) := by
          rw [← Text.byteLength_append, hcut]
        rw [List.cons_append, eventsFrom_cons, hmeasure, List.take_append_of_le_length hlength,
          Segment.drop_append_newline q hlength,
          ih (cs.drop (Segment.measure c cs).2).length
            (by rw [← hn, List.length_drop, List.length_cons]; omega) hcs _ rfl,
          eventsFrom_cons start c cs, List.append_assoc, hbytes, ← Nat.add_assoc start]

/-- The tokens of a text that ends cleanly are followed by those of the next line. -/
theorem lexemesFrom_append_newline {cs : List Char} (h : EndsCleanly cs) (start : Nat)
    (q : List Char) :
    lexemesFrom start (cs ++ '\n' :: q) =
      lexemesFrom start cs ++ lexemesFrom (start + Text.byteLength cs + 1) q := by
  rw [lexemesFrom, eventsFrom_append_newline h, List.filterMap_append]
  rfl

/-- A source that lexes cleanly to its end: no unterminated comment and no unterminated string is
reported, and its last character that is not blank is no backslash. -/
structure LexesCleanly (source : String) : Prop where
  comment : ∀ d ∈ (Lexing.ofSource source).diagnostics, d.code ≠ ⟨.error, 101⟩
  string : ∀ d ∈ (Lexing.ofSource source).diagnostics, d.code ≠ ⟨.error, 102⟩
  backslash : endsInBackslash source.toList = false

theorem LexesCleanly.of_diagnostics_eq_nil {source : String}
    (h : (Lexing.ofSource source).diagnostics = [])
    (hbackslash : endsInBackslash source.toList = false) :
    LexesCleanly source :=
  ⟨by simp [h], by simp [h], hbackslash⟩

theorem LexesCleanly.endsCleanly {source : String} (h : LexesCleanly source) :
    EndsCleanly source.toList where
  comment e he hkind := by
    have hd : e.diagnostic? = some (.error 101 "unterminated block comment" e.place.span) := by
      rw [Event.diagnostic?, hkind]
      rfl
    exact h.comment _ (diagnostics_ofSource source ▸ List.mem_filterMap.2 ⟨e, he, hd⟩) rfl
  string e he hkind := by
    have hd : e.diagnostic? = some (.error 102 "unterminated string literal" e.place.span) := by
      rw [Event.diagnostic?, hkind]
      rfl
    exact h.string _ (diagnostics_ofSource source ▸ List.mem_filterMap.2 ⟨e, he, hd⟩) rfl
  backslash := h.backslash

end VerilogScaffold
