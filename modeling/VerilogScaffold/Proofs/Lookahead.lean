import VerilogScaffold.Proofs.Line

/-!
# How far a segment looks ahead

Where a segment ends is decided by what stands behind it, and of that little matters: the first
character, and for a number whether a base or a fraction follows. This module says when what stands
behind a segment can be replaced by something else without moving its end: `measure_append_congr`.

## Shape of the statements

Everything is said of a text `cs ++ F` whose segment ends with `cs`, and of the same text with `F'`
in place of `F`. `MayReplace F F'` holds when `F'` starts with nothing that could go on with a
lexeme, unless `F` starts with the same character; it is enough for most kinds of segment. The rest
(blanks, comments, directives, names behind a backslash, numbers that end in their base, malformed
stretches) is left to `Segment.Tolerates`.

The measures that `measure` is put together from have a lemma `_append_congr` each. Those are for
one `cs`, as long as the measure says, so a measure that is a sum of others falls into parts of
`cs`.
-/

namespace VerilogScaffold.Segment

variable {p q : Char → Bool} {c : Char} {cs F F' : List Char}

/-! ## Runs -/

theorem startsWith_of_head? (h : F'.head? = F.head?) (p : Char → Bool) :
    startsWith p F' = startsWith p F := by
  rw [startsWith, startsWith, h]

theorem startsWith_eq_false_of_imp (h : startsWith p F' = true → startsWith p F = true)
    (hF : startsWith p F = false) : startsWith p F' = false := by
  rcases hF' : startsWith p F' with _ | _
  · rfl
  · rw [h hF'] at hF
    exact hF

theorem run_cons_of_pos (hc : p c = true) (cs : List Char) : run p (c :: cs) = run p cs + 1 := by
  simp [run, hc]

theorem run_cons_of_neg (hc : p c = false) (cs : List Char) : run p (c :: cs) = 0 := by
  simp [run, hc]

theorem run_eq_zero_iff : run p cs = 0 ↔ startsWith p cs = false := by
  rcases cs with _ | ⟨c, cs⟩
  · simp [run, startsWith]
  · by_cases hc : p c = true <;> simp [run, startsWith, hc]

/-- A run is as long as a text if all of the text belongs to it and what follows does not. -/
theorem run_append_eq_length_iff :
    run p (cs ++ F) = cs.length ↔ (∀ c ∈ cs, p c = true) ∧ startsWith p F = false := by
  induction cs with
  | nil => simp [run_eq_zero_iff]
  | cons c cs ih =>
    by_cases hc : p c = true
    · rw [List.cons_append, run_cons_of_pos hc, List.length_cons, Nat.add_right_cancel_iff, ih]
      simp [hc]
    · rw [List.cons_append, run_cons_of_neg (by simpa using hc)]
      simp [hc]

theorem run_append_congr (h : run p (cs ++ F) = cs.length)
    (hF' : startsWith p F' = true → startsWith p F = true) : run p (cs ++ F') = cs.length := by
  obtain ⟨hcs, hF⟩ := run_append_eq_length_iff.1 h
  exact run_append_eq_length_iff.2 ⟨hcs, startsWith_eq_false_of_imp hF' hF⟩

/-- A text falls into a run and what is left, which starts with another character or is empty. -/
theorem exists_run (p : Char → Bool) (cs : List Char) :
    ∃ front back, cs = front ++ back ∧ (∀ c ∈ front, p c = true) ∧ startsWith p back = false := by
  refine ⟨cs.takeWhile p, cs.dropWhile p, List.takeWhile_append_dropWhile.symm,
    fun c hc => List.all_eq_true.1 List.all_takeWhile c hc, ?_⟩
  rcases hback : cs.dropWhile p with _ | ⟨c, back⟩
  · rfl
  · have := List.head_dropWhile_not p (l := cs) (by simp [hback])
    simpa [hback, startsWith] using this

/-- A run that stops within a text stops there whatever follows the text. -/
theorem run_append_of_all {front back : List Char} (hfront : ∀ c ∈ front, p c = true)
    (hback : startsWith p back = false) : run p (front ++ back) = front.length :=
  run_append_eq_length_iff.2 ⟨hfront, hback⟩

theorem startsWith_append_of_ne_nil (h : cs ≠ []) (F F' : List Char) :
    startsWith p (cs ++ F') = startsWith p (cs ++ F) := by
  rcases cs with _ | ⟨c, cs⟩
  · exact absurd rfl h
  · rfl

theorem startsWith_append_imp (h : startsWith p F' = true → startsWith p F = true)
    (cs : List Char) :
    startsWith p (cs ++ F') = true → startsWith p (cs ++ F) = true := by
  rcases cs with _ | ⟨c, cs⟩
  · exact h
  · exact id

/-- A run and a measure of what is left that together are as long as a text. -/
theorem run_add_append_congr {m : List Char → Nat}
    (h : run p (cs ++ F) + m ((cs ++ F).drop (run p (cs ++ F))) = cs.length)
    (hp : (∀ c ∈ cs, p c = true) → startsWith p F' = true → startsWith p F = true)
    (hm : ∀ front back, cs = front ++ back → (∀ c ∈ front, p c = true) →
      m (back ++ F) = back.length → m (back ++ F') = back.length) :
    run p (cs ++ F') + m ((cs ++ F').drop (run p (cs ++ F'))) = cs.length := by
  obtain ⟨front, back, rfl, hfront, hback⟩ := exists_run p cs
  rw [List.append_assoc, List.length_append] at h ⊢
  rcases back with _ | ⟨b, back⟩
  · -- the run is all of the text, and goes on with nothing that follows
    rw [List.nil_append, List.length_nil, Nat.add_zero] at h ⊢
    have hrun : run p (front ++ F) = front.length := by
      have hle : front.length ≤ run p (front ++ F) := by
        rw [run, List.takeWhile_append_of_pos hfront, List.length_append]
        exact Nat.le_add_right _ _
      omega
    rw [hrun, List.drop_left] at h
    rw [run_append_congr hrun (hp (by simpa using hfront)), List.drop_left]
    exact congrArg _ (hm front [] rfl hfront (Nat.add_eq_left.1 h))
  · have hstop : ∀ G, run p (front ++ (b :: back ++ G)) = front.length := fun G =>
      run_append_of_all hfront hback
    rw [hstop, List.drop_left] at h
    rw [hstop, List.drop_left, hm front (b :: back) rfl hfront (Nat.add_left_cancel h)]

/-- An optional mark and a run behind it that together are as long as a text. -/
theorem mark_add_run_append_congr
    (h : (if startsWith p (cs ++ F) then 1 else 0) +
      run q ((cs ++ F).drop (if startsWith p (cs ++ F) then 1 else 0)) = cs.length)
    (hp : startsWith p F' = true → startsWith p F = true)
    (hq : startsWith q F' = true → startsWith q F = true) :
    (if startsWith p (cs ++ F') then 1 else 0) +
      run q ((cs ++ F').drop (if startsWith p (cs ++ F') then 1 else 0)) = cs.length := by
  rcases cs with _ | ⟨c, cs⟩
  · simp only [List.nil_append, List.length_nil] at h ⊢
    by_cases hmark : startsWith p F = true
    · rw [if_pos hmark] at h
      omega
    · rw [if_neg hmark, List.drop_zero, Nat.zero_add] at h
      rw [if_neg (mt hp hmark), List.drop_zero, Nat.zero_add]
      rw [run_eq_zero_iff] at h
      exact run_eq_zero_iff.2 (startsWith_eq_false_of_imp hq h)
  · rw [startsWith_append_of_ne_nil (List.cons_ne_nil c cs) F F']
    split at h
    · rw [if_pos ‹_›, List.length_cons]
      rw [List.cons_append, List.drop_succ_cons, List.drop_zero, List.length_cons] at h
      rw [List.cons_append, List.drop_succ_cons, List.drop_zero,
        run_append_congr (by omega) hq, Nat.add_comm]
    · rw [if_neg ‹_›, List.drop_zero, Nat.zero_add]
      rw [List.drop_zero, Nat.zero_add] at h
      exact run_append_congr h hq

/-! ## Comments and directives -/

theorem two_le_of_commentEnd? {n : Nat} (h : commentEnd? cs = some n) : 2 ≤ n := by
  fun_induction commentEnd? cs generalizing n with
  | case1 cs =>
    obtain rfl := Option.some.inj h
    exact Nat.le_refl 2
  | case2 c cs hmark ih =>
    obtain ⟨m, hm, rfl⟩ := Option.map_eq_some_iff.1 h
    exact Nat.le_succ_of_le (ih hm)
  | case3 => simp at h

/-- A comment that is closed within a text is closed there by the text itself. -/
theorem commentEnd?_of_append {n : Nat} (h : commentEnd? (cs ++ F) = some n) (hn : n ≤ cs.length) :
    commentEnd? cs = some n := by
  have htwo := two_le_of_commentEnd? h
  fun_induction commentEnd? cs generalizing n with
  | case1 cs => simpa [commentEnd?] using h
  | case2 c cs hmark ih =>
    rcases cs with _ | ⟨d, cs⟩
    · rw [List.length_singleton] at hn
      omega
    · rw [List.cons_append, List.cons_append, commentEnd?] at h
      · obtain ⟨m, hm, rfl⟩ := Option.map_eq_some_iff.1 h
        rw [ih hm (by simpa using hn) (two_le_of_commentEnd? hm)]
        rfl
      · rintro rest rfl hrest
        exact hmark cs rfl (by rw [(List.cons.inj hrest).1])
  | case3 =>
    rw [List.length_nil] at hn
    omega

/-- The end of a line directive: its line ends, unless that is continued, or the text does. -/
theorem lineEnd_eq_zero_iff {continued : Bool} :
    lineEnd continued F = 0 ↔ F = [] ∨ (continued = false ∧ startsWith (· != '\n') F = false) := by
  rcases F with _ | ⟨c, F⟩
  · simp [lineEnd]
  · by_cases hc : c = '\n'
    · cases continued <;> simp [lineEnd, hc, startsWith]
    · by_cases hblank : Text.isAsciiBlank c = true <;> simp [lineEnd, hc, hblank, startsWith]

theorem lineEnd_append_congr {continued : Bool} (h : lineEnd continued (cs ++ F) = cs.length)
    (hF' : lineEnd (continuedAfter continued cs) F = 0 →
      lineEnd (continuedAfter continued cs) F' = 0) :
    lineEnd continued (cs ++ F') = cs.length := by
  induction cs generalizing continued with
  | nil => exact hF' h
  | cons c cs ih =>
    rw [List.cons_append, lineEnd, List.length_cons] at h ⊢
    rw [continuedAfter] at hF'
    by_cases hnewline : c = '\n'
    · subst hnewline
      rw [if_pos (by decide)] at hF'
      cases continued
      · simp at h
      · simp only [if_true] at h ⊢
        rw [ih (Nat.succ.inj h) hF']
    · rw [if_neg hnewline] at h ⊢
      by_cases hblank : Text.isAsciiBlank c = true
      · rw [if_pos hblank] at h hF' ⊢
        rw [ih (Nat.succ.inj h) hF']
      · rw [if_neg hblank] at h hF' ⊢
        rw [ih (Nat.succ.inj h) hF']

/-! ## What may follow -/

/-- The characters that can go on with a lexeme: those of words and numbers, and those that join a
mark in front of them. -/
def joins (c : Char) : Bool :=
  isWordChar c || isDecimal c || isBasedDigit c || isBaseStart c || c.isDigit || c == 'e' || c ==
    'E' || c == '+' || c == '-' || c == '=' || c == '/' || c == '*'

/-- Whether a text starts, behind a gap, with the base of a number. -/
def startsBase (F : List Char) : Bool :=
  match F.drop (run isGap F) with
  | '\'' :: base :: _ => isBaseStart base
  | _ => false

/-- Whether a text starts with a fraction. -/
def startsFraction : List Char → Bool
  | '.' :: F => startsWith Char.isDigit F
  | _ => false

/-- Whether `F'` can stand behind any lexeme but a number where `F` stood: it starts with nothing
that goes on with a lexeme, unless `F` does so too. -/
structure MayAdjoin (F F' : List Char) : Prop where
  head : startsWith joins F' = true → F'.head? = F.head?
  fraction : startsFraction F' = true → startsFraction F = true

/-- Whether `F'` can stand behind a lexeme where `F` stood. Behind the digits of a number it may be
a base that goes on with them, even with a gap in front. -/
structure MayReplace (F F' : List Char) : Prop extends MayAdjoin F F' where
  base : startsBase F' = true → startsBase F = true

theorem MayAdjoin.startsWith (h : MayAdjoin F F') (hp : ∀ c, p c = true → joins c = true)
    (hF' : startsWith p F' = true) : startsWith p F = true := by
  have hjoins : Segment.startsWith joins F' = true := by
    rcases F' with _ | ⟨c, F'⟩
    · exact absurd hF' (by simp [Segment.startsWith])
    · simp only [Segment.startsWith, List.head?_cons, Option.any_some] at hF' ⊢
      exact hp c hF'
  rwa [← startsWith_of_head? (h.head hjoins)]

/-- A gap in front of a base is stepped over. -/
theorem startsBase_append_gap {gap : List Char} (hgap : ∀ c ∈ gap, isGap c = true) (G : List Char) :
    startsBase (gap ++ G) = startsBase G := by
  have hrun : run isGap (gap ++ G) = gap.length + run isGap G := by
    rw [run, List.takeWhile_append_of_pos hgap, List.length_append, run]
  rw [startsBase, startsBase, hrun, ← List.drop_drop, List.drop_left]

/-- Behind what is no gap, a base is there or not as it was. -/
theorem MayAdjoin.startsBase_append (h : MayAdjoin F F') (hcs : ¬∀ c ∈ cs, isGap c = true) :
    startsBase (cs ++ F') = true → startsBase (cs ++ F) = true := by
  obtain ⟨front, back, rfl, hfront, hback⟩ := exists_run isGap cs
  rcases back with _ | ⟨b, back⟩
  · rw [List.append_nil] at hcs
    exact absurd hfront hcs
  · have hstop : ∀ G, startsBase (front ++ (b :: back) ++ G) =
        match b :: back ++ G with
        | '\'' :: base :: _ => isBaseStart base
        | _ => false := by
      intro G
      have hrun : run isGap (front ++ (b :: back ++ G)) = front.length :=
        run_append_of_all hfront hback
      rw [startsBase, List.append_assoc, hrun, List.drop_left]
    rw [hstop, hstop]
    rcases back with _ | ⟨base, back⟩
    · by_cases htick : b = '\''
      · subst htick
        have hbase := h.startsWith (p := isBaseStart) (by simp +contextual [joins])
        rcases F with _ | ⟨x, F⟩ <;> rcases F' with _ | ⟨y, F'⟩ <;> simp_all [Segment.startsWith]
      · simp [htick]
    · by_cases htick : b = '\''
      · subst htick
        exact id
      · simp [htick]

theorem MayReplace.startsBase_append (h : MayReplace F F') (cs : List Char) :
    startsBase (cs ++ F') = true → startsBase (cs ++ F) = true := by
  by_cases hcs : ∀ c ∈ cs, isGap c = true
  · rw [startsBase_append_gap hcs, startsBase_append_gap hcs]
    exact h.base
  · exact h.toMayAdjoin.startsBase_append hcs

theorem startsFraction_append_imp (h : MayAdjoin F F') (cs : List Char) :
    startsFraction (cs ++ F') = true → startsFraction (cs ++ F) = true := by
  rcases cs with _ | ⟨c, cs⟩
  · exact h.fraction
  · by_cases hpoint : c = '.'
    · subst hpoint
      exact startsWith_append_imp (h.startsWith (by simp +contextual [joins])) cs
    · simp [startsFraction, hpoint]

/-! ## Lexemes -/

theorem exponentLength_append_congr (hF' : MayAdjoin F F')
    (h : exponentLength (cs ++ F) = cs.length) : exponentLength (cs ++ F') = cs.length := by
  rcases cs with _ | ⟨c, cs⟩
  · have hzero : ∀ G, exponentLength G = 0 ↔
        startsWith (fun c => c == 'e' || c == 'E') G = false := by
      intro G
      rcases G with _ | ⟨c, G⟩
      · simp [exponentLength, startsWith]
      · by_cases hc : (c == 'e' || c == 'E') = true <;> simp [exponentLength, startsWith, hc]
    rw [List.nil_append, List.length_nil, hzero] at h ⊢
    exact startsWith_eq_false_of_imp (hF'.startsWith (by grind [joins])) h
  · simp only [List.cons_append, exponentLength, List.length_cons] at h ⊢
    split at h
    · rw [if_pos ‹_›]
      have hrest : (if startsWith (fun d => d == '+' || d == '-') (cs ++ F) then 1 else 0) +
          run isDecimal ((cs ++ F).drop
            (if startsWith (fun d => d == '+' || d == '-') (cs ++ F) then 1
              else 0)) = cs.length := by
        omega
      have := mark_add_run_append_congr hrest (hF'.startsWith (by grind [joins]))
        (hF'.startsWith (by grind [joins]))
      omega
    · omega

theorem fractionLength_eq_zero_of_startsFraction (h : startsFraction cs = false) :
    fractionLength cs = 0 := by
  fun_cases fractionLength cs with
  | case1 cs hdigit => exact absurd hdigit (by simpa [startsFraction] using h)
  | case2 => rfl
  | case3 => rfl

theorem fractionLength_of_startsFraction (h : startsFraction cs = true) :
    fractionLength cs = 1 + run isDecimal (cs.drop 1) ∧ 1 ≤ run isDecimal (cs.drop 1) := by
  rcases cs with _ | ⟨c, cs⟩
  · cases h
  · by_cases hpoint : c = '.'
    · subst hpoint
      rw [startsFraction] at h
      rcases cs with _ | ⟨d, cs⟩
      · cases h
      · have hd : d.isDigit = true := h
        rw [fractionLength, if_pos h, List.drop_succ_cons, List.drop_zero,
          run_cons_of_pos (by simp [isDecimal, hd])]
        omega
    · simp [startsFraction, hpoint] at h

/-- The length of what follows the digits of a number without a base. -/
theorem fraction_add_exponent_append_congr (hF' : MayAdjoin F F')
    (h : fractionLength (cs ++ F) + exponentLength ((cs ++ F).drop (fractionLength (cs ++ F))) =
      cs.length) :
    fractionLength (cs ++ F') + exponentLength ((cs ++ F').drop (fractionLength (cs ++ F'))) =
      cs.length := by
  rcases hfraction : startsFraction (cs ++ F) with _ | _
  · have hfraction' : startsFraction (cs ++ F') = false := by
      rcases h' : startsFraction (cs ++ F') with _ | _
      · rfl
      · rw [startsFraction_append_imp hF' cs h'] at hfraction
        cases hfraction
    rw [fractionLength_eq_zero_of_startsFraction hfraction, List.drop_zero, Nat.zero_add] at h
    rw [fractionLength_eq_zero_of_startsFraction hfraction', List.drop_zero, Nat.zero_add]
    exact exponentLength_append_congr hF' h
  · -- the point and the first digit both stand in the text
    obtain ⟨hlength, hdigits⟩ := fractionLength_of_startsFraction hfraction
    obtain ⟨c, d, cs, rfl⟩ : ∃ c d ds, cs = c :: d :: ds := by
      rcases cs with _ | ⟨c, _ | ⟨d, ds⟩⟩
      · rw [List.length_nil] at h
        omega
      · rw [List.length_singleton] at h
        omega
      · exact ⟨c, d, ds, rfl⟩
    have hfraction' : startsFraction (c :: d :: cs ++ F') = true := by
      by_cases hpoint : c = '.'
      · subst hpoint
        exact hfraction
      · simp [startsFraction, hpoint] at hfraction
    obtain ⟨hlength', -⟩ := fractionLength_of_startsFraction hfraction'
    rw [hlength, List.length_cons] at h
    rw [hlength', List.length_cons]
    rw [List.cons_append, List.drop_succ_cons, List.drop_zero, Nat.add_comm 1,
      List.drop_succ_cons] at h ⊢
    have hrest : run isDecimal (d :: cs ++ F) +
        exponentLength ((d :: cs ++ F).drop (run isDecimal (d :: cs ++ F))) = (d :: cs).length := by
      omega
    have := run_add_append_congr hrest (fun _ => hF'.startsWith (by simp +contextual [joins]))
      fun _ back _ _ h => exponentLength_append_congr hF' h
    omega

/-! ### Numbers with a base -/

/-- Whether a text is a base and the gap behind it. -/
def isBaseAndGap : List Char → Bool
  | c :: rest => isRadix c && rest.all isGap
  | [] => false

/-- Whether what follows the tick of a based number is a base without digits. -/
def opensBase (value : List Char) : Bool :=
  isBaseAndGap (value.drop (if startsWith isSignMark value then 1 else 0))

/-- Whether a number ends in its base, so that digits behind a gap would belong to it. -/
def endsInBase (number : List Char) : Bool := opensBase ((number.dropWhile (· != '\'')).drop 1)

theorem endsInBase_tick (value : List Char) : endsInBase ('\'' :: value) = opensBase value := rfl

theorem endsInBase_append {front : List Char} (h : ∀ c ∈ front, c ≠ '\'') (back : List Char) :
    endsInBase (front ++ back) = endsInBase back := by
  rw [endsInBase, List.dropWhile_append_of_pos (by simpa using h), endsInBase]

/-- The length of a base and the digits behind it. -/
def digitsLength : List Char → Nat
  | c :: rest =>
    if isRadix c then 1 + (run isGap rest + run isBasedDigit (rest.drop (run isGap rest))) else 0
  | [] => 0

theorem basedLength_eq (cs : List Char) :
    basedLength cs = (if startsWith isSignMark cs then 1 else 0) +
      digitsLength (cs.drop (if startsWith isSignMark cs then 1 else 0)) := by
  rw [basedLength]
  rcases cs.drop (if startsWith isSignMark cs then 1 else 0) with _ | ⟨c, rest⟩
  · rfl
  · by_cases hradix : isRadix c = true
    · simp only [digitsLength, hradix, if_true]
      omega
    · simp [digitsLength, hradix]

theorem digitsLength_eq_zero_iff : digitsLength cs = 0 ↔ startsWith isRadix cs = false := by
  rcases cs with _ | ⟨c, cs⟩
  · simp [digitsLength, startsWith]
  · by_cases hradix : isRadix c = true <;> simp [digitsLength, startsWith, hradix]

theorem digitsLength_append_congr (hF' : MayAdjoin F F')
    (hgap : isBaseAndGap cs = true → startsWith isGap F' = true → startsWith isGap F = true)
    (h : digitsLength (cs ++ F) = cs.length) : digitsLength (cs ++ F') = cs.length := by
  rcases cs with _ | ⟨c, cs⟩
  · rw [List.nil_append, List.length_nil, digitsLength_eq_zero_iff] at h ⊢
    exact startsWith_eq_false_of_imp
      (hF'.startsWith (by simp +contextual [joins, isBaseStart])) h
  · simp only [List.cons_append, digitsLength, List.length_cons] at h ⊢
    split at h
    · rename_i hradix
      have hrest : run isGap (cs ++ F) + run isBasedDigit ((cs ++ F).drop (run isGap (cs ++ F))) =
          cs.length := by omega
      have := run_add_append_congr hrest
        (fun hall => hgap (by simpa [isBaseAndGap, hradix] using hall)) fun _ back _ _ h =>
          run_append_congr h (hF'.startsWith (by simp +contextual [joins]))
      rw [if_pos hradix, this, Nat.add_comm]
    · omega

theorem basedLength_append_congr (hF' : MayAdjoin F F')
    (hgap : opensBase cs = true → startsWith isGap F' = true → startsWith isGap F = true)
    (h : basedLength (cs ++ F) = cs.length) : basedLength (cs ++ F') = cs.length := by
  rw [basedLength_eq] at h ⊢
  rcases cs with _ | ⟨c, cs⟩
  · rw [List.nil_append, List.length_nil] at h ⊢
    have hsign : ¬startsWith isSignMark F = true := by
      intro hsign
      rw [if_pos hsign] at h
      omega
    have hsign' : ¬startsWith isSignMark F' = true :=
      mt (hF'.startsWith (by simp +contextual [joins, isBaseStart])) hsign
    rw [if_neg hsign, Nat.zero_add, List.drop_zero, ← List.nil_append F] at h
    rw [if_neg hsign', Nat.zero_add, List.drop_zero, ← List.nil_append F']
    exact digitsLength_append_congr hF' (by simp [isBaseAndGap]) h
  · rw [startsWith_append_of_ne_nil (List.cons_ne_nil c cs) F F']
    rw [opensBase, show startsWith isSignMark (c :: cs) = startsWith isSignMark (c :: cs ++ F)
      from rfl] at hgap
    split at h
    · rw [if_pos ‹_›, List.drop_succ_cons, List.drop_zero] at hgap
      rw [List.cons_append, List.drop_succ_cons, List.drop_zero, List.length_cons] at h
      rw [if_pos ‹_›, List.cons_append, List.drop_succ_cons, List.drop_zero, List.length_cons,
        digitsLength_append_congr hF' hgap (by omega), Nat.add_comm]
    · rw [if_neg ‹_›] at hgap ⊢
      rw [List.drop_zero, Nat.zero_add] at h ⊢
      exact digitsLength_append_congr hF' hgap h

/-! ### Numbers -/

theorem startsBase_iff : startsBase cs = true ↔
    ∃ base value, cs.drop (run isGap cs) = '\'' :: base :: value ∧ isBaseStart base = true := by
  rw [startsBase]
  split
  · rename_i base value hdrop
    simp [hdrop]
  · rename_i hdrop
    simp only [Bool.false_eq_true, false_iff, not_exists, not_and]
    exact fun base value h => absurd h (hdrop base value)

theorem numberTail_of_startsBase (h : startsBase cs = true) :
    numberTail cs = run isGap cs + (1 + basedLength ((cs.drop (run isGap cs)).drop 1)) := by
  obtain ⟨base, value, hdrop, hbase⟩ := startsBase_iff.1 h
  rw [numberTail, hdrop]
  simp only [hbase, if_true, List.drop_succ_cons, List.drop_zero]
  omega

theorem numberTail_of_not_startsBase (h : startsBase cs = false) :
    numberTail cs = fractionLength cs + exponentLength (cs.drop (fractionLength cs)) := by
  rw [numberTail]
  rw [startsBase] at h
  split
  · simp_all
  · rfl

theorem basedLength_pos (h : startsWith isBaseStart cs = true) : 1 ≤ basedLength cs := by
  rw [basedLength_eq]
  by_cases hsign : startsWith isSignMark cs = true
  · rw [if_pos hsign]
    exact Nat.le_add_right _ _
  · rw [if_neg hsign, List.drop_zero, Nat.zero_add, Nat.one_le_iff_ne_zero, ne_eq,
      digitsLength_eq_zero_iff]
    rcases cs with _ | ⟨c, cs⟩
    · cases h
    · simp_all [startsWith, isBaseStart]

theorem numberTail_append_congr (hF' : MayAdjoin F F')
    (hbase' : startsBase (cs ++ F') = true → startsBase (cs ++ F) = true)
    (hgap : endsInBase cs = true → startsWith isGap F' = true → startsWith isGap F = true)
    (h : numberTail (cs ++ F) = cs.length) : numberTail (cs ++ F') = cs.length := by
  rcases hbase : startsBase (cs ++ F) with _ | _
  · have hbase' : startsBase (cs ++ F') = false := by
      rcases h' : startsBase (cs ++ F') with _ | _
      · rfl
      · rw [hbase' h'] at hbase
        cases hbase
    rw [numberTail_of_not_startsBase hbase] at h
    rw [numberTail_of_not_startsBase hbase']
    exact fraction_add_exponent_append_congr hF' h
  · obtain ⟨base, value, hdrop, hstart⟩ := startsBase_iff.1 hbase
    rw [numberTail_of_startsBase hbase] at h
    obtain ⟨front, back, rfl, hfront, hback⟩ := exists_run isGap cs
    rcases back with _ | ⟨b, back⟩
    · -- the tick would stand in what follows
      rw [List.append_nil, run, List.takeWhile_append_of_pos hfront, List.length_append] at h
      omega
    · have hrun : ∀ G, run isGap (front ++ (b :: back) ++ G) = front.length := fun G => by
        rw [List.append_assoc]
        exact run_append_of_all hfront hback
      have hcut : ∀ G, (front ++ (b :: back) ++ G).drop front.length = b :: (back ++ G) := by
        intro G
        rw [List.append_assoc, List.drop_left, List.cons_append]
      rw [hrun, hcut] at hdrop h
      obtain ⟨rfl, hvalue⟩ := List.cons.inj hdrop
      rw [List.drop_succ_cons, List.drop_zero, List.length_append, List.length_cons] at h
      have hlength : basedLength (back ++ F) = back.length := by omega
      have hnil : back ≠ [] := by
        rintro rfl
        rw [List.nil_append] at hvalue hlength
        have hpos : 1 ≤ basedLength F := basedLength_pos (by rw [hvalue]; exact hstart)
        rw [List.length_nil] at hlength
        omega
      have hgap' : ∀ c ∈ front, c ≠ '\'' := by
        rintro c hc rfl
        exact absurd (hfront _ hc) (by decide)
      rw [endsInBase_append hgap', endsInBase_tick] at hgap
      have hbase' : startsBase (front ++ ('\'' :: back) ++ F') = true := by
        rw [startsBase, hrun, hcut]
        rcases back with _ | ⟨d, back⟩
        · exact absurd rfl hnil
        · rw [(List.cons.inj hvalue).1]
          exact hstart
      rw [numberTail_of_startsBase hbase', hrun, hcut, List.drop_succ_cons, List.drop_zero,
        basedLength_append_congr hF' hgap hlength, List.length_append, List.length_cons]
      omega

/-- What a number goes on with behind its digits is no gap alone. -/
theorem not_gap_of_numberTail {rest : List Char} (hne : rest ≠ [])
    (h : numberTail (rest ++ F) = rest.length) : ¬∀ c ∈ rest, isGap c = true := by
  intro hgap
  rcases hbase : startsBase (rest ++ F) with _ | _
  · rcases rest with _ | ⟨c, rest⟩
    · exact hne rfl
    · have hc := hgap c (List.mem_cons_self ..)
      have hzero : numberTail (c :: rest ++ F) = 0 := by
        simp only [isGap, Bool.or_eq_true, beq_iff_eq] at hc
        rw [numberTail_of_not_startsBase hbase]
        rcases hc with rfl | rfl <;> rfl
      rw [hzero] at h
      cases h
  · rw [numberTail_of_startsBase hbase, run, List.takeWhile_append_of_pos hgap,
      List.length_append] at h
    omega

/-- A number ends where it ended, unless it is digits alone and a base can now go on with them. -/
theorem numberLength_append_congr (hF' : MayAdjoin F F')
    (hbase : (∀ c ∈ cs, isDecimal c = true) → startsBase F' = true → startsBase F = true)
    (hgap : endsInBase cs = true → startsWith isGap F' = true → startsWith isGap F = true)
    (h : numberLength (cs ++ F) = cs.length) : numberLength (cs ++ F') = cs.length := by
  rw [numberLength_eq] at h ⊢
  refine run_add_append_congr h (fun _ => hF'.startsWith (by simp +contextual [joins])) ?_
  rintro front back rfl hfront h
  refine numberTail_append_congr hF' ?_ (fun hback => hgap ?_) h
  · rcases back with _ | ⟨d, back⟩
    · exact hbase (by simpa using hfront)
    · exact hF'.startsBase_append (not_gap_of_numberTail (List.cons_ne_nil d back) h)
  · rwa [endsInBase_append]
    rintro c hc rfl
    exact absurd (hfront _ hc) (by decide)

/-! ### Strings, names and marks -/

theorem stringEnd_cons {c : Char} (hc : c ≠ '\\') (cs : List Char) :
    stringEnd (c :: cs) =
      if c = '\n' then (0, false)
      else if c = '"' then (1, true)
      else ((stringEnd cs).1 + 1, (stringEnd cs).2) := by
  rw [stringEnd]
  exact fun d ds h => absurd h hc

/-- A string literal has ended already only where its line or the text ends, and is not closed
then. -/
theorem stringEnd_of_fst_eq_zero (h : (stringEnd F).1 = 0) :
    startsWith (· != '\n') F = false ∧ (stringEnd F).2 = false := by
  fun_cases stringEnd F <;> simp_all [startsWith, stringEnd]

theorem stringEnd_append_congr {closed : Bool}
    (hF' : closed = false → F' = [] ∨ F'.head? = F.head?)
    (h : stringEnd (cs ++ F) = (cs.length, closed)) :
    stringEnd (cs ++ F') = (cs.length, closed) := by
  fun_induction stringEnd cs with
  | case1 =>
    obtain ⟨hF, hclosed⟩ := stringEnd_of_fst_eq_zero (congrArg Prod.fst h)
    obtain rfl : false = closed := hclosed.symm.trans (congrArg Prod.snd h)
    rcases hF' rfl with rfl | hhead
    · rfl
    · rw [List.nil_append, ← startsWith_of_head? hhead] at hF
      rcases F' with _ | ⟨c, F'⟩
      · rfl
      · obtain rfl : c = '\n' := by simpa [startsWith] using hF
        rfl
  | case2 c cs n closed' hrest ih =>
    rw [List.cons_append, List.cons_append, stringEnd, Prod.mk.injEq] at h
    have := ih (Prod.ext (Nat.add_right_cancel h.1) h.2)
    rw [List.cons_append, List.cons_append, stringEnd, this]
    rfl
  | case3 cs =>
    rw [List.cons_append, stringEnd_cons (by decide), if_pos rfl] at h
    cases congrArg Prod.fst h
  | case4 cs =>
    rw [List.cons_append, stringEnd_cons (by decide), if_neg (by decide), if_pos rfl] at h
    rw [List.cons_append, stringEnd_cons (by decide), if_neg (by decide), if_pos rfl, h]
  | case5 c cs hescape hnewline hquote n closed' hrest ih =>
    by_cases hc : c = '\\'
    · subst hc
      obtain rfl : cs = [] := by
        rcases cs with _ | ⟨d, cs⟩
        · rfl
        · exact absurd rfl (hescape d cs rfl)
      -- a backslash at the end takes the next character with it, so nothing follows
      rcases F with _ | ⟨d, F⟩
      · obtain rfl : false = closed := congrArg Prod.snd h
        rcases hF' rfl with rfl | hhead
        · exact h
        · rw [List.head?_nil, List.head?_eq_none_iff] at hhead
          rw [hhead, h]
      · rw [List.singleton_append, stringEnd, Prod.mk.injEq, List.length_singleton] at h
        omega
    · rw [List.cons_append, stringEnd_cons hc, if_neg hnewline, if_neg hquote, Prod.mk.injEq] at h
      have := ih (Prod.ext (Nat.add_right_cancel h.1) h.2)
      rw [List.cons_append, stringEnd_cons hc, if_neg hnewline, if_neg hquote, this]
      rfl

theorem measureString_append_congr {kind : SegmentKind}
    (hF' : kind = .malformed .unterminatedString → F' = [] ∨ F'.head? = F.head?)
    (h : measureString (cs ++ F) = (kind, cs.length)) :
    measureString (cs ++ F') = (kind, cs.length) := by
  rw [measureString] at h ⊢
  obtain ⟨hkind, hlength⟩ := Prod.mk.inj h
  have hend : stringEnd (cs ++ F) = (cs.length, (stringEnd (cs ++ F)).2) := Prod.ext hlength rfl
  rw [stringEnd_append_congr (fun hclosed => hF' ?_) hend]
  · exact Prod.ext hkind rfl
  · rw [← hkind, hclosed]
    rfl

theorem measureEscaped_append_congr {kind : SegmentKind}
    (hF' : startsWith (!Text.isAsciiBlank ·) F' = true → startsWith (!Text.isAsciiBlank ·) F = true)
    (h : measureEscaped (cs ++ F) = (kind, cs.length)) :
    measureEscaped (cs ++ F') = (kind, cs.length) := by
  have hrun : run (!Text.isAsciiBlank ·) (cs ++ F) = cs.length := by
    have hlength := congrArg Prod.snd h
    rw [measureEscaped] at hlength
    split at hlength
    · rename_i hzero
      exact hzero.trans hlength
    · exact hlength
  rw [measureEscaped, hrun] at h
  rw [measureEscaped, run_append_congr hrun hF']
  exact h

theorem measureMark_append_congr (hF' : MayAdjoin F F') {kind : SegmentKind}
    (h : measureMark c (cs ++ F) = (kind, cs.length)) :
    measureMark c (cs ++ F') = (kind, cs.length) := by
  simp only [measureMark] at h ⊢
  split at h
  · exact h
  · split at h
    · rename_i hc
      rw [if_pos hc]
      obtain ⟨hkind, hlength⟩ := Prod.mk.inj h
      have hequals := hF'.startsWith (p := (· == '=')) (by simp +contextual [joins])
      rw [run_append_congr hlength hequals, ← hkind]
      rcases cs with _ | ⟨d, cs⟩
      · obtain ⟨-, hF⟩ := run_append_eq_length_iff.1 hlength
        rw [List.nil_append, List.nil_append, hF, startsWith_eq_false_of_imp hequals hF]
      · rfl
    · split at h
      · obtain ⟨hkind, hlength⟩ := Prod.mk.inj h
        rw [run_append_congr hlength (hF'.startsWith (by simp +contextual [joins])), ← hkind]
        simp_all
      · simp_all
/-! ### Directives -/

/-- Whether a directive that takes a name stands without one, so that a name behind a gap would
belong to it. -/
def lacksName (directive : List Char) : Bool :=
  directives.lookup (String.ofList ((directive.drop 1).takeWhile isWordChar)) ==
    some .wordAndName && ((directive.drop 1).dropWhile isWordChar).all isGap

theorem lacksName_cons {word rest : List Char} (hword : ∀ c ∈ word, isWordChar c = true)
    (hrest : startsWith isWordChar rest = false) (c : Char) :
    lacksName (c :: (word ++ rest)) =
      (directives.lookup (String.ofList word) == some .wordAndName && rest.all isGap) := by
  have hcut : (word ++ rest).takeWhile isWordChar = word ∧
      (word ++ rest).dropWhile isWordChar = rest := by
    rw [List.takeWhile_append_of_pos hword, List.dropWhile_append_of_pos hword]
    rcases rest with _ | ⟨d, rest⟩
    · simp
    · have hd : isWordChar d = false := by simpa [startsWith] using hrest
      simp [hd]
  rw [lacksName, List.drop_succ_cons, List.drop_zero, hcut.1, hcut.2]

/-- What a backtick with a word behind it starts. -/
theorem measureBacktick_append {word rest : List Char} (hword : ∀ c ∈ word, isWordChar c = true)
    (hrest : startsWith isWordChar rest = false) :
    measureBacktick (word ++ rest) =
      (directives.lookup (String.ofList word)).elim (.lexeme .macroUsage, word.length) fun extent =>
        (.directive, word.length + extent.measure rest) := by
  rw [measureBacktick]
  simp only [run_append_of_all hword hrest, List.take_left, List.drop_left]
  rcases directives.lookup (String.ofList word) <;> rfl

theorem extent_measure_append_congr (hF' : MayAdjoin F F') {extent : DirectiveExtent}
    (hline : startsWith (· != '\n') F' = true → startsWith (· != '\n') F = true)
    (hend : F = [] → F' = [] ∨ endsInBackslash cs = false)
    (hname : extent = .wordAndName → (∀ c ∈ cs, isGap c = true) →
      startsWith isGap F' = true → startsWith isGap F = true)
    (h : extent.measure (cs ++ F) = cs.length) : extent.measure (cs ++ F') = cs.length := by
  cases extent with
  | word => exact h
  | wordAndName =>
    exact run_add_append_congr h (hname rfl) fun _ back _ _ h =>
      run_append_congr h (hF'.startsWith (by simp +contextual [joins]))
  | line =>
    refine lineEnd_append_congr h fun h => ?_
    rw [lineEnd_eq_zero_iff] at h ⊢
    rcases h with rfl | ⟨hcontinued, hF⟩
    · refine (hend rfl).imp_right fun hbackslash => ⟨?_, startsWith_eq_false_of_imp hline rfl⟩
      exact (endsInBackslash_append_eq [] cs).symm.trans hbackslash
    · exact .inr ⟨hcontinued, startsWith_eq_false_of_imp hline hF⟩

theorem measureBacktick_append_congr (hF' : MayAdjoin F F') {kind : SegmentKind}
    (hline : kind = .directive → startsWith (· != '\n') F' = true → startsWith (· != '\n') F = true)
    (hend : kind = .directive → F = [] → F' = [] ∨ endsInBackslash ('\x60' :: cs) = false)
    (hname : kind = .directive → lacksName ('\x60' :: cs) = true →
      startsWith isGap F' = true → startsWith isGap F = true)
    (h : measureBacktick (cs ++ F) = (kind, cs.length)) :
    measureBacktick (cs ++ F') = (kind, cs.length) := by
  obtain ⟨word, rest, rfl, hword, hrest⟩ := exists_run isWordChar cs
  have hbehind : startsWith isWordChar (rest ++ F) = false := by
    rcases rest with _ | ⟨d, rest⟩
    · have hle : word.length ≤ run isWordChar (word ++ F) := by
        rw [run, List.takeWhile_append_of_pos hword, List.length_append]
        exact Nat.le_add_right _ _
      have hlength := congrArg Prod.snd h
      rw [List.append_nil, measureBacktick] at hlength
      have hrun : run isWordChar (word ++ F) = word.length := by
        split at hlength
        · simp only at hlength
          omega
        · exact hlength
      exact (run_append_eq_length_iff.1 hrun).2
    · exact hrest
  have hbehind' : startsWith isWordChar (rest ++ F') = false :=
    startsWith_eq_false_of_imp
      (startsWith_append_imp (hF'.startsWith (by simp +contextual [joins])) rest) hbehind
  rw [List.append_assoc, measureBacktick_append hword hbehind] at h
  rw [List.append_assoc, measureBacktick_append hword hbehind']
  rcases hextent : directives.lookup (String.ofList word) with _ | extent
  · rwa [hextent] at h
  · rw [hextent] at h
    obtain ⟨rfl, hlength⟩ := Prod.mk.inj h
    rw [List.length_append] at hlength
    rw [Option.elim_some, extent_measure_append_congr hF' (hline rfl)
      (fun hF => (hend rfl hF).imp_right fun hcs => ?_) (fun hkind hall => hname rfl ?_)
      (Nat.add_left_cancel hlength), List.length_append]
    · rcases hrest : endsInBackslash rest with _ | _
      · rfl
      · rw [← List.cons_append, endsInBackslash_append hrest] at hcs
        cases hcs
    · rw [lacksName_cons hword hrest, hextent, hkind]
      simpa using hall

/-! ## Segments -/

/-- What else has to hold for `F'` to stand behind a segment in place of `F`, where the segment's
kind asks for more than a lexeme does: what ends at one kind of character, or at the end of the
text, has to end there still, and a gap must not be the first where digits or a name are still to
come. -/
def Tolerates (F F' : List Char) (s : Segment) : Prop :=
  match s.kind with
  | .blank => startsWith Text.isAsciiBlank F' = true → startsWith Text.isAsciiBlank F = true
  | .comment true => startsWith (· != '\n') F' = true → startsWith (· != '\n') F = true
  | .comment false => F' = []
  | .directive =>
    (startsWith (· != '\n') F' = true → startsWith (· != '\n') F = true) ∧
      (F = [] → F' = [] ∨ endsInBackslash s.text = false) ∧
      (lacksName s.text = true → startsWith isGap F' = true → startsWith isGap F = true)
  | .lexeme .number =>
    endsInBase s.text = true → startsWith isGap F' = true → startsWith isGap F = true
  | .lexeme .escapedIdentifier | .malformed .emptyEscapedName =>
    startsWith (!Text.isAsciiBlank ·) F' = true → startsWith (!Text.isAsciiBlank ·) F = true
  | .malformed .unterminatedString => F' = [] ∨ F'.head? = F.head?
  | .lexeme _ | .malformed (.unrecognized _) => True

theorem tolerates_of_head? {s : Segment} (h : F'.head? = F.head?) (hs : s.kind ≠ .comment false) :
    s.Tolerates F F' := by
  have himp : ∀ p, startsWith p F' = true → startsWith p F = true := fun p => by
    rw [startsWith_of_head? h]
    exact id
  have hnil : F = [] → F' = [] := by
    rintro rfl
    simpa using h
  unfold Tolerates
  split
  · exact himp _
  · exact himp _
  · exact absurd ‹_› hs
  · exact ⟨himp _, fun hF => .inl (hnil hF), fun _ => himp _⟩
  · exact fun _ => himp _
  · exact himp _
  · exact himp _
  · exact .inr h
  · trivial
  · trivial

theorem tolerates_escaped {kind : SegmentKind} (h : measureEscaped (cs ++ F) = (kind, cs.length))
    {text : List Char} (ht : Tolerates F F' ⟨kind, text⟩) :
    startsWith (!Text.isAsciiBlank ·) F' = true → startsWith (!Text.isAsciiBlank ·) F = true := by
  rw [measureEscaped] at h
  split at h
  · obtain ⟨rfl, -⟩ := Prod.mk.inj h
    exact ht
  · obtain ⟨rfl, -⟩ := Prod.mk.inj h
    exact ht

/-- A block comment that ends with a text is closed in it. -/
theorem blockComment_append_congr {n : Nat} (F' : List Char)
    (hstar : startsWith (· == '*') (cs ++ F) = true)
    (h : commentEnd? ((cs ++ F).drop 1) = some n) (hlength : 1 + n = cs.length) :
    startsWith (· == '*') (cs ++ F') = true ∧ commentEnd? ((cs ++ F').drop 1) = some n := by
  rcases cs with _ | ⟨d, cs⟩
  · rw [List.length_nil] at hlength
    omega
  · rw [List.length_cons] at hlength
    exact ⟨hstar, commentEnd?_append (commentEnd?_of_append h (by omega)) F'⟩

/-- A line comment is still one, and ends where it ended. -/
theorem lineComment_append_congr (hslash : startsWith (· == '/') (cs ++ F) = true)
    (hline : startsWith (· != '\n') F' = true → startsWith (· != '\n') F = true)
    (hlength : run (· != '\n') (cs ++ F) = cs.length) :
    startsWith (· == '/') (cs ++ F') = true ∧ run (· != '\n') (cs ++ F') = cs.length := by
  have hnil : cs ≠ [] := by
    rintro rfl
    obtain ⟨-, hF⟩ := run_append_eq_length_iff.1 hlength
    rcases F with _ | ⟨d, F⟩
    · cases hslash
    · obtain rfl : d = '/' := by simpa [startsWith] using hslash
      cases hF
  exact ⟨(startsWith_append_of_ne_nil hnil F F').trans hslash, run_append_congr hlength hline⟩

/-- A number that starts with a digit ends where it ended. -/
theorem decimal_append_congr (hF' : MayAdjoin F F') (hdigit : c.isDigit = true)
    (hbase : (∀ d ∈ cs, isDecimal d = true) → startsBase F' = true → startsBase F = true)
    (hgap : endsInBase (c :: cs) = true → startsWith isGap F' = true → startsWith isGap F = true)
    (hlength : numberLength (cs ++ F) = cs.length) : numberLength (cs ++ F') = cs.length := by
  have hne : ∀ d ∈ [c], d ≠ '\'' := by
    intro d hd
    obtain rfl := List.mem_singleton.1 hd
    rintro rfl
    exact absurd hdigit (by decide)
  have hends := endsInBase_append hne cs
  rw [List.singleton_append] at hends
  exact numberLength_append_congr hF' hbase (hends ▸ hgap) hlength

/-- A number that starts with its base still does, and ends where it ended. -/
theorem based_append_congr (hF' : MayAdjoin F F') (hbase : startsWith isBaseStart (cs ++ F) = true)
    (hgap : endsInBase ('\'' :: cs) = true → startsWith isGap F' = true → startsWith isGap F = true)
    (hlength : basedLength (cs ++ F) = cs.length) :
    startsWith isBaseStart (cs ++ F') = true ∧ basedLength (cs ++ F') = cs.length := by
  have hnil : cs ≠ [] := by
    rintro rfl
    have := basedLength_pos hbase
    rw [hlength] at this
    exact absurd this (by decide)
  rw [endsInBase_tick] at hgap
  exact ⟨(startsWith_append_of_ne_nil hnil F F').trans hbase,
    basedLength_append_congr hF' hgap hlength⟩

/-- **A segment ends where it ended.** What stands behind a segment can be replaced by anything that
neither goes on with a lexeme nor is more than the segment tolerates. -/
theorem measure_append_congr (hF' : MayAdjoin F F') {kind : SegmentKind}
    (hnumber : kind = .lexeme .number → (∀ d ∈ cs, isDecimal d = true) →
      startsBase F' = true → startsBase F = true)
    (ht : Tolerates F F' ⟨kind, c :: cs⟩) (h : measure c (cs ++ F) = (kind, cs.length)) :
    measure c (cs ++ F') = (kind, cs.length) := by
  have hslash :=
    startsWith_append_imp (hF'.startsWith (p := (· == '/')) (by simp +contextual [joins])) cs
  have hstar :=
    startsWith_append_imp (hF'.startsWith (p := (· == '*')) (by simp +contextual [joins])) cs
  have hbase :=
    startsWith_append_imp (hF'.startsWith (p := isBaseStart) (by simp +contextual [joins])) cs
  have hword := hF'.startsWith (p := isWordChar) (by simp +contextual [joins])
  -- one test after the other, as `measure` makes them; each comes out as it did
  rw [measure] at h ⊢
  split at h
  · obtain ⟨rfl, hlength⟩ := Prod.mk.inj h
    rw [if_pos ‹_›, run_append_congr hlength ht]
  rw [if_neg ‹_›]
  split at h
  · rename_i hcomment
    obtain ⟨rfl, hlength⟩ := Prod.mk.inj h
    obtain ⟨hslash', hlength'⟩ := lineComment_append_congr hcomment.2 ht hlength
    rw [if_pos ⟨hcomment.1, hslash'⟩, hlength']
  rename_i hcomment
  rw [if_neg (fun hc => hcomment ⟨hc.1, hslash hc.2⟩)]
  split at h
  · rename_i hblock
    split at h
    · rename_i n hn
      obtain ⟨rfl, hlength⟩ := Prod.mk.inj h
      obtain ⟨hstar', hn'⟩ := blockComment_append_congr F' hblock.2 hn hlength
      rw [if_pos ⟨hblock.1, hstar'⟩, hn', ← hlength]
    · obtain ⟨rfl, hlength⟩ := Prod.mk.inj h
      -- an unclosed comment takes all there is
      obtain rfl : F' = [] := ht
      obtain rfl : F = [] := by simpa using hlength
      rw [if_pos hblock, ‹commentEnd? _ = none›, hlength]
  rename_i hblock
  rw [if_neg (fun hc => hblock ⟨hc.1, hstar hc.2⟩)]
  split at h
  · rename_i htick
    subst htick
    rw [if_pos rfl]
    refine measureBacktick_append_congr hF' ?_ ?_ ?_ h
    · rintro rfl
      exact ht.1
    · rintro rfl
      exact ht.2.1
    · rintro rfl
      exact ht.2.2
  rw [if_neg ‹_›]
  split at h
  · rename_i hstart
    obtain ⟨hkind, hlength⟩ := Prod.mk.inj h
    have hlength' := run_append_congr hlength hword
    rw [← take_run, hlength, List.take_left] at hkind
    rw [if_pos hstart, ← take_run, hlength', List.take_left, hkind]
  rw [if_neg ‹_›]
  split at h
  · rw [if_pos ‹_›]
    exact measureEscaped_append_congr (tolerates_escaped h ht) h
  rw [if_neg ‹_›]
  split at h
  · obtain ⟨rfl, hlength⟩ := Prod.mk.inj h
    rw [if_pos ‹_›, run_append_congr hlength hword]
  rw [if_neg ‹_›]
  split at h
  · rename_i hdigit
    obtain ⟨rfl, hlength⟩ := Prod.mk.inj h
    rw [if_pos hdigit, decimal_append_congr hF' hdigit (hnumber rfl) ht hlength]
  rw [if_neg ‹_›]
  split at h
  · rename_i htick
    obtain ⟨rfl, hlength⟩ := Prod.mk.inj h
    obtain ⟨hbase', hlength'⟩ := based_append_congr hF' htick.2 (htick.1 ▸ ht) hlength
    rw [if_pos ⟨htick.1, hbase'⟩, hlength']
  rename_i htick
  rw [if_neg (fun hc => htick ⟨hc.1, hbase hc.2⟩)]
  split at h
  · rw [if_pos ‹_›]
    refine measureString_append_congr ?_ h
    rintro rfl
    exact ht
  rw [if_neg ‹_›]
  exact measureMark_append_congr hF' h

end VerilogScaffold.Segment
