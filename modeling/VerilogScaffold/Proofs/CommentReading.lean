import VerilogScaffold.Proofs.Comment

/-!
# Where comments are found

A reader who knows of comments, string literals and escaped names, and of nothing else, finds the
comments of a text from left to right (`IsComment`). The scan knows of directives as well, and skips
a line directive to the end of its line, whatever starts there.

The two agree wherever no line directive stands (`Skimmed.stands`): what else the scan cuts off
holds no character that starts anything for the reader. In a line directive they agree if what
starts there ends there, too. Comments are then blanks (`Extraction.outcome_blanked`), but for those
that are entangled with what is in front of them (`Entangled`).
-/

namespace VerilogScaffold

open Text Segment

/-! ## The reader -/

/-- Whether what starts with `c` is a comment, and how many of the characters after `c` belong to
it, for a reader who knows of comments, string literals and escaped names. -/
def skim (c : Char) (cs : List Char) : Bool × Nat :=
  if c = '/' ∧ startsWith (· == '/') cs then (true, run (· != '\n') cs)
  else if c = '/' ∧ startsWith (· == '*') cs then
    match commentEnd? (cs.drop 1) with
    | some n => (true, 1 + n)
    | none => (false, cs.length)
  else if c = '"' then (false, (stringEnd cs).1)
  else if c = '\\' then (false, run (fun d => !isAsciiBlank d) cs)
  else (false, 0)

/-- The reader, on the way from left to right, stands between the two parts of a text. -/
inductive Skimmed : List Char → List Char → Prop
  | start (cs : List Char) : Skimmed [] cs
  | step {before cs : List Char} {c : Char} (h : Skimmed before (c :: cs)) :
      Skimmed (before ++ c :: cs.take (skim c cs).2) (cs.drop (skim c cs).2)

/-- A complete comment of a text, with what stands before and after it. -/
structure IsComment (before comment after : List Char) : Prop where
  reached : Skimmed before (comment ++ after)
  complete : ∃ c cs, comment = c :: cs ∧ skim c (cs ++ after) = (true, cs.length)

/-- The ways in which a comment is entangled with what stands in front of it. -/
inductive Entangled (before comment after : List Char) : Prop
  /-- What stands in front of the comment goes on over blanks: a number that ends in its base, or a
  conditional directive without its name. -/
  | resumed {s : Segment} (last : (split before).getLast? = some s)
      (resumes : s.resumes (blanked comment ++ after) = true)
  /-- The comment, or something in front of it, starts in a line directive and goes on behind its
  end. -/
  | astride {segments later : List Segment} {c : Char} {front back : List Char}
      (cut : split (before ++ comment ++ after) =
        segments ++ ⟨.directive, front ++ c :: back⟩ :: later)
      (reached : Skimmed (segments.flatMap Segment.text ++ front)
        (c :: (back ++ later.flatMap Segment.text)))
      (early : (segments.flatMap Segment.text ++ front).length ≤ before.length)
      (past : back.length < (skim c (back ++ later.flatMap Segment.text)).2)
  /-- The comment is a part of a line directive, and blanks in its place change whether a line is
  continued. -/
  | continued {segments later : List Segment} {front back : List Char}
      (cut : split (before ++ comment ++ after) =
        segments ++ ⟨.directive, front ++ comment ++ back⟩ :: later)
      (place : before = segments.flatMap Segment.text ++ front)
      (lines : ¬SameContinuations (before ++ comment ++ after) (before ++ blanked comment ++ after))

/-! ## Characters that start nothing -/

/-- The characters that start nothing for the reader. -/
def isPlain (c : Char) : Bool := c != '/' && c != '"' && c != '\\'

section Plain

variable {p : Char → Bool} {c : Char} {cs : List Char}

theorem skim_of_isPlain (hc : isPlain c = true) (cs : List Char) : skim c cs = (false, 0) := by
  simp only [isPlain, Bool.and_eq_true, bne_iff_ne] at hc
  rw [skim, if_neg (fun h => hc.1.1 h.1), if_neg (fun h => hc.1.1 h.1), if_neg hc.1.2, if_neg hc.2]

theorem isPlain_of_imp (hp : p '/' = false ∧ p '"' = false ∧ p '\\' = false) (hc : p c = true) :
    isPlain c = true := by
  simp only [isPlain, Bool.and_eq_true, bne_iff_ne]
  refine ⟨⟨?_, ?_⟩, ?_⟩
  · rintro rfl
    exact absurd hc (by simp [hp.1])
  · rintro rfl
    exact absurd hc (by simp [hp.2.1])
  · rintro rfl
    exact absurd hc (by simp [hp.2.2])

theorem run_le_run_isPlain (hp : p '/' = false ∧ p '"' = false ∧ p '\\' = false) (cs : List Char) :
    run p cs ≤ run isPlain cs := by
  induction cs with
  | nil => exact Nat.le_refl _
  | cons c cs ih =>
    by_cases hc : p c = true
    · rw [run_cons_of_pos hc, run_cons_of_pos (isPlain_of_imp hp hc)]
      exact Nat.succ_le_succ ih
    · rw [run_cons_of_neg (by simpa using hc)]
      exact Nat.zero_le _

theorem mark_le_run_isPlain (hp : p '/' = false ∧ p '"' = false ∧ p '\\' = false) (cs : List Char) :
    (if startsWith p cs then 1 else 0) ≤ run isPlain cs := by
  rcases cs with _ | ⟨c, cs⟩
  · simp [startsWith]
  · split
    · rename_i hc
      rw [run_cons_of_pos (isPlain_of_imp hp (by simpa [startsWith] using hc))]
      exact Nat.le_add_left ..
    · exact Nat.zero_le _

/-- A stretch of plain characters and one behind it are one stretch. -/
theorem add_le_run {n m : Nat} (hn : n ≤ run p cs) (hm : m ≤ run p (cs.drop n)) :
    n + m ≤ run p cs := by
  induction n generalizing cs with
  | zero => rwa [Nat.zero_add]
  | succ n ih =>
    rcases cs with _ | ⟨c, cs⟩
    · exact absurd hn (Nat.not_succ_le_zero n)
    · by_cases hc : p c = true
      · rw [run_cons_of_pos hc] at hn ⊢
        have := ih (Nat.le_of_succ_le_succ hn) hm
        omega
      · rw [run_cons_of_neg (by simpa using hc)] at hn
        exact absurd hn (Nat.not_succ_le_zero n)

theorem digitsLength_le_run (cs : List Char) : digitsLength cs ≤ run isPlain cs := by
  rcases cs with _ | ⟨c, cs⟩
  · exact Nat.zero_le _
  · rw [digitsLength]
    split
    · rename_i hc
      rw [run_cons_of_pos (isPlain_of_imp (p := isRadix) (by decide) hc), Nat.add_comm]
      exact Nat.succ_le_succ
        (add_le_run (run_le_run_isPlain (by decide) cs) (run_le_run_isPlain (by decide) _))
    · exact Nat.zero_le _

theorem basedLength_le_run (cs : List Char) : basedLength cs ≤ run isPlain cs := by
  rw [basedLength_eq]
  exact add_le_run (mark_le_run_isPlain (by decide) cs) (digitsLength_le_run _)

theorem fractionLength_le_run (cs : List Char) : fractionLength cs ≤ run isPlain cs := by
  fun_cases fractionLength cs with
  | case1 cs =>
    rw [run_cons_of_pos (show isPlain '.' = true from rfl), Nat.add_comm]
    exact Nat.succ_le_succ (run_le_run_isPlain (by decide) cs)
  | case2 => exact Nat.zero_le _
  | case3 => exact Nat.zero_le _

theorem exponentLength_le_run (cs : List Char) : exponentLength cs ≤ run isPlain cs := by
  rcases cs with _ | ⟨c, cs⟩
  · exact Nat.zero_le _
  · simp only [exponentLength]
    split
    · rename_i hc
      rw [run_cons_of_pos (isPlain_of_imp (p := fun d => d == 'e' || d == 'E') (by decide) hc),
        Nat.add_assoc, Nat.add_comm]
      exact Nat.succ_le_succ
        (add_le_run (mark_le_run_isPlain (by decide) cs) (run_le_run_isPlain (by decide) _))
    · exact Nat.zero_le _

theorem numberTail_le_run (cs : List Char) : numberTail cs ≤ run isPlain cs := by
  have hunsized : fractionLength cs + exponentLength (cs.drop (fractionLength cs)) ≤
      run isPlain cs :=
    add_le_run (fractionLength_le_run cs) (exponentLength_le_run _)
  rw [numberTail]
  split
  · rename_i base value hdrop
    split
    · rw [Nat.add_assoc]
      refine add_le_run (run_le_run_isPlain (by decide) cs) ?_
      rw [hdrop, run_cons_of_pos (show isPlain '\'' = true from rfl), Nat.add_comm]
      exact Nat.succ_le_succ (basedLength_le_run _)
    · exact hunsized
  · exact hunsized

theorem numberLength_le_run (cs : List Char) : numberLength cs ≤ run isPlain cs := by
  rw [numberLength_eq]
  exact add_le_run (run_le_run_isPlain (by decide) cs) (numberTail_le_run _)

/-- The reader goes over plain characters. -/
theorem Skimmed.append_of_isPlain {before rest : List Char} (h : Skimmed before (cs ++ rest))
    (hcs : ∀ c ∈ cs, isPlain c = true) : Skimmed (before ++ cs) rest := by
  induction cs generalizing before with
  | nil => rwa [List.append_nil]
  | cons c cs ih =>
    obtain ⟨hc, hcs⟩ := List.forall_mem_cons.1 hcs
    have hstep := Skimmed.step h
    rw [List.append_eq, skim_of_isPlain hc] at hstep
    have := ih hstep hcs
    rwa [List.take_zero, List.append_assoc] at this

end Plain

/-- Over a segment, the reader goes on as the scan does, or one character at a time: the segment is
a directive, or all characters behind its first one are plain. -/
theorem skim_measure (c : Char) (cs : List Char) :
    (skim c cs).2 = (Segment.measure c cs).2 ∨
      (skim c cs).2 = 0 ∧
        ((Segment.measure c cs).1 = .directive ∨ (Segment.measure c cs).2 ≤ run isPlain cs) := by
  have hplain : ∀ {m : SegmentKind × Nat}, isPlain c = true → m.1 = .directive ∨
      m.2 ≤ run isPlain cs →
      (skim c cs).2 = m.2 ∨ (skim c cs).2 = 0 ∧ (m.1 = .directive ∨ m.2 ≤ run isPlain cs) :=
    fun hc hm => .inr ⟨congrArg Prod.snd (skim_of_isPlain hc cs), hm⟩
  fun_cases Segment.measure c cs with
  | case1 hblank =>
    exact hplain (isPlain_of_imp (p := isAsciiBlank) (by decide) hblank)
      (.inr (run_le_run_isPlain (by decide) cs))
  | case2 hblank hline => exact .inl (by rw [skim, if_pos hline])
  | case3 hblank hline hblock n hn => exact .inl (by rw [skim, if_neg hline, if_pos hblock, hn])
  | case4 hblank hline hblock hn => exact .inl (by rw [skim, if_neg hline, if_pos hblock, hn])
  | case5 hblank hline hblock htick =>
    subst htick
    refine hplain rfl ?_
    rw [measureBacktick]
    split
    · exact .inl rfl
    · exact .inr (run_le_run_isPlain (by decide) cs)
  | case6 hblank hline hblock htick hword =>
    exact hplain (isPlain_of_imp (p := isWordStart) (by decide) hword)
      (.inr (run_le_run_isPlain (by decide) cs))
  | case7 hblank hline hblock htick hword hescaped =>
    refine .inl ?_
    rw [skim, if_neg hline, if_neg hblock, if_neg (by rw [hescaped]; decide),
      if_pos hescaped, measureEscaped]
    split <;> simp_all
  | case8 hblank hline hblock htick hword hescaped hdollar =>
    subst hdollar
    exact hplain rfl (.inr (run_le_run_isPlain (by decide) cs))
  | case9 hblank hline hblock htick hword hescaped hdollar hdigit =>
    exact hplain (isPlain_of_imp (p := Char.isDigit) (by decide) hdigit)
      (.inr (numberLength_le_run cs))
  | case10 hblank hline hblock htick hword hescaped hdollar hdigit hbase =>
    obtain ⟨rfl, -⟩ := hbase
    exact hplain rfl (.inr (basedLength_le_run cs))
  | case11 hblank hline hblock htick hword hescaped hdollar hdigit hbase hquote =>
    exact .inl (by rw [skim, if_neg hline, if_neg hblock, if_pos hquote]; rfl)
  | case12 hblank hline hblock htick hword hescaped hdollar hdigit hbase hquote =>
    refine .inr ⟨by rw [skim, if_neg hline, if_neg hblock, if_neg hquote, if_neg hescaped], .inr ?_⟩
    rw [measureMark]
    split
    · exact Nat.zero_le _
    · split
      · exact run_le_run_isPlain (by decide) cs
      · split
        · exact run_le_run_isPlain (by decide) cs
        · exact Nat.zero_le _

/-- What is a comment for the reader is one for the scan, wherever a segment starts there. -/
theorem measure_of_skim {c : Char} {cs : List Char} {n : Nat} (h : skim c cs = (true, n)) :
    Segment.measure c cs = (.comment true, n) := by
  rw [skim] at h
  split at h
  · rename_i hline
    obtain ⟨rfl, hline⟩ := hline
    rw [Segment.measure, if_neg (by decide), if_pos ⟨rfl, hline⟩]
    exact Prod.ext rfl (Prod.mk.inj h).2
  · rename_i hline
    split at h
    · rename_i hblock
      rw [Segment.measure, if_neg (by rw [hblock.1]; decide), if_neg hline, if_pos hblock]
      rcases hend : commentEnd? (cs.drop 1) with _ | m
      · rw [hend] at h
        cases (Prod.mk.inj h).1
      · rw [hend] at h
        exact Prod.ext rfl (Prod.mk.inj h).2
    · split at h
      · cases (Prod.mk.inj h).1
      · split at h <;> cases (Prod.mk.inj h).1

/-- The reader goes over a segment at once or, if it is a directive or plain behind its first
character, one character at a time. -/
theorem skim_of_fits {s : Segment} {F : List Char} {c : Char} {cs : List Char} (h : s.Fits F)
    (text : s.text = c :: cs) :
    (skim c (cs ++ F)).2 = cs.length ∨
      (skim c (cs ++ F)).2 = 0 ∧ (s.kind = .directive ∨ ∀ d ∈ cs, isPlain d = true) := by
  obtain ⟨d, ds, htext, hmeasure⟩ := h
  obtain ⟨rfl, rfl⟩ := List.cons.inj (text.symm.trans htext)
  have hskim := skim_measure c (cs ++ F)
  rw [hmeasure] at hskim
  refine hskim.imp_right (And.imp_right (Or.imp_right fun hplain d hd => ?_))
  have hle : (cs ++ F).take cs.length <+: (cs ++ F).takeWhile isPlain := by
    rw [← take_run]
    exact List.take_prefix_take_left hplain
  rw [List.take_left] at hle
  exact List.all_eq_true.1 List.all_takeWhile d (hle.subset hd)

/-! ## The cut of a text -/

section Split

variable {cs before rest : List Char} {segments later : List Segment} {s : Segment}

theorem fits_of_split_eq (cut : split cs = segments ++ s :: later) :
    s.Fits (later.flatMap Segment.text) := by
  have hfit := fit_split cs
  rw [cut, fit_append] at hfit
  simpa using hfit.2.1

/-- What stands behind some segments is cut as it was. -/
theorem split_behind (cut : split cs = segments ++ later) :
    split (later.flatMap Segment.text) = later := by
  have hfit := fit_split cs
  rw [cut, fit_append] at hfit
  exact hfit.2.split_flatMap_text

/-- What stands in front of some segments is cut as it was. -/
theorem split_before (cut : split (before ++ rest) = segments ++ later)
    (place : before = segments.flatMap Segment.text) : split before = segments := by
  have hfit := fit_split (before ++ rest)
  rw [cut, fit_append] at hfit
  rw [place, hfit.1.split_flatMap_text]

end Split

/-! ## Where the reader stands -/

/-- Where the reader stands in the cut of a text: at its end, at the start of a segment, or in one
that is a directive or where what is left is plain. -/
inductive Stands (before : List Char) : List Char → Prop
  | done : Stands before []
  | inside {segments later : List Segment} {s : Segment} {front back rest : List Char}
      (cut : split (before ++ rest) = segments ++ s :: later)
      (place : before = segments.flatMap Segment.text ++ front)
      (text : s.text = front ++ back) (ne : back ≠ [])
      (how : front = [] ∨ s.kind = .directive ∨ ∀ c ∈ back, isPlain c = true) : Stands before rest

theorem Stands.rest_eq {before rest front back : List Char} {segments later : List Segment}
    {s : Segment} (cut : split (before ++ rest) = segments ++ s :: later)
    (place : before = segments.flatMap Segment.text ++ front) (text : s.text = front ++ back) :
    rest = back ++ later.flatMap Segment.text := by
  have hwhole := flatMap_text_split (before ++ rest)
  rw [cut, List.flatMap_append, List.flatMap_cons, text, place, List.append_assoc,
    List.append_assoc] at hwhole
  exact (List.append_cancel_left (List.append_cancel_left hwhole)).symm

/-- The reader stands at the start of the text that is left. -/
theorem stands_of_cut {before rest : List Char} {segments : List Segment}
    (cut : split (before ++ rest) = segments ++ split rest)
    (place : before = segments.flatMap Segment.text) :
    Stands before rest := by
  rcases rest with _ | ⟨c, rest⟩
  · exact .done
  · rw [split] at cut
    have place' : before = segments.flatMap Segment.text ++ [] := by rw [place, List.append_nil]
    exact .inside cut place' rfl (List.cons_ne_nil _ _) (.inl rfl)

/-- The reader goes on in a segment, to its end or in what is a directive or plain. -/
theorem stands_ahead {before front back : List Char} {c : Char}
    {segments later : List Segment} {s : Segment}
    {n : Nat} (cut : split (before ++ c :: (back ++ later.flatMap Segment.text)) =
      segments ++ s :: later)
    (place : before = segments.flatMap Segment.text ++ front) (text : s.text = front ++ c :: back)
    (how : n = back.length ∨ s.kind = .directive ∨ ∀ d ∈ back, isPlain d = true) :
    Stands (before ++ c :: back.take n) (back.drop n ++ later.flatMap Segment.text) := by
  have hwhole : before ++ c :: back.take n ++ (back.drop n ++ later.flatMap Segment.text) =
      before ++ c :: (back ++ later.flatMap Segment.text) := by
    simp [← List.append_assoc (back.take n)]
  have hplace : before ++ c :: back.take n = segments.flatMap Segment.text ++
      (front ++ c :: back.take n) := by
    rw [place, List.append_assoc]
  by_cases hall : back.drop n = []
  · have hfront : back.take n = back := List.take_of_length_le (List.drop_eq_nil_iff.1 hall)
    rw [← hwhole, List.append_cons segments] at cut
    rw [hall, List.nil_append] at cut ⊢
    refine stands_of_cut (cut.trans (congrArg _ (split_behind cut).symm)) ?_
    rw [hplace, hfront, ← text, List.flatMap_append, List.flatMap_singleton]
  · have htext : s.text = (front ++ c :: back.take n) ++ back.drop n := by
      rw [text, List.append_assoc, List.cons_append, List.take_append_drop]
    refine .inside (hwhole ▸ cut) hplace htext hall (.inr ?_)
    rcases how with how | hdirective | hplain
    · exact absurd (List.drop_eq_nil_iff.2 how.ge) hall
    · exact .inl hdirective
    · exact .inr fun d hd => hplain d (List.mem_of_mem_drop hd)

/-- A step of the reader, if what it goes over in a directive ends there. -/
theorem Stands.step {before cs : List Char} {c : Char} (h : Stands before (c :: cs))
    (hkeeps : ∀ {segments later : List Segment} {front back : List Char},
      split (before ++ c :: cs) = segments ++ ⟨.directive, front ++ c :: back⟩ :: later →
      before = segments.flatMap Segment.text ++ front → (skim c cs).2 ≤ back.length) :
    Stands (before ++ c :: cs.take (skim c cs).2) (cs.drop (skim c cs).2) := by
  cases h with
  | @inside segments later s front back _ cut place text ne how =>
    have hrest := rest_eq cut place text
    rcases back with _ | ⟨b, back⟩
    · exact absurd rfl ne
    rw [List.cons_append] at hrest
    obtain ⟨rfl, rfl⟩ := List.cons.inj hrest
    have hover : (skim c (back ++ later.flatMap Segment.text)).2 ≤ back.length ∧
        ((skim c (back ++ later.flatMap Segment.text)).2 = back.length ∨ s.kind = .directive ∨
          ∀ d ∈ back, isPlain d = true) := by
      rcases how with rfl | hdirective | hplain
      · rcases skim_of_fits (fits_of_split_eq cut) text with hskim | ⟨hskim, how⟩
        · exact ⟨hskim.le, .inl hskim⟩
        · exact ⟨by omega, .inr how⟩
      · rcases s with ⟨kind, stext⟩
        obtain rfl : kind = .directive := hdirective
        obtain rfl : stext = front ++ c :: back := text
        exact ⟨hkeeps cut place, .inr (.inl rfl)⟩
      · obtain ⟨hc, hback⟩ := List.forall_mem_cons.1 hplain
        rw [skim_of_isPlain hc]
        exact ⟨Nat.zero_le _, .inr (.inr hback)⟩
    rw [List.take_append_of_le_length hover.1, List.drop_append_of_le_length hover.1]
    exact stands_ahead cut place text hover.2

/-- **The reader stands in the cut**, as far as nothing in front of the comment goes on behind a
line directive. -/
theorem Skimmed.stands {before comment after pre rest : List Char}
    (h : ¬Entangled before comment after)
    (hskim : Skimmed pre rest) (hwhole : pre ++ rest = before ++ comment ++ after)
    (hearly : pre.length ≤ before.length) : Stands pre rest := by
  induction hskim with
  | start cs => exact stands_of_cut (List.nil_append (split cs)).symm rfl
  | @step pre cs c hskim ih =>
    have hwhole' : pre ++ c :: cs = before ++ comment ++ after := by
      rw [← hwhole, List.append_assoc, List.cons_append, List.take_append_drop]
    have hearly' : pre.length ≤ before.length := by
      rw [List.length_append] at hearly
      omega
    refine (ih hwhole' hearly').step fun {segments later front back} cut place => ?_
    by_contra hpast
    have htext : Segment.text ⟨.directive, front ++ c :: back⟩ = front ++ c :: back := rfl
    have hcs : cs = back ++ later.flatMap Segment.text :=
      (List.cons.inj (Stands.rest_eq cut place htext)).2
    subst place hcs
    exact h (.astride (hwhole' ▸ cut) hskim hearly' (Nat.lt_of_not_le hpast))

/-- Where a segment starts with a comment, that is the segment. -/
theorem blankable_of_segment {before cs after : List Char} {c : Char}
    {segments later : List Segment} {s : Segment}
    (hx : ¬Entangled before (c :: cs) after) (hskim : skim c (cs ++ after) = (true, cs.length))
    (cut : split (before ++ c :: (cs ++ after)) = segments ++ s :: later)
    (place : before = segments.flatMap Segment.text) : Blankable before (c :: cs) after := by
  obtain ⟨d, ds, htext, hmeasure⟩ := fits_of_split_eq cut
  obtain ⟨rfl, hrest⟩ : c = d ∧ cs ++ after = ds ++ later.flatMap Segment.text :=
    List.cons.inj (Stands.rest_eq cut (place.trans (List.append_nil _).symm) htext)
  rw [← hrest, measure_of_skim hskim] at hmeasure
  obtain ⟨hkind, hlength⟩ := Prod.mk.inj hmeasure
  obtain ⟨rfl, rfl⟩ := List.append_inj hrest hlength
  obtain rfl : s = ⟨.comment true, c :: cs⟩ := by
    rcases s with ⟨kind, text⟩
    exact congrArg₂ Segment.mk hkind.symm htext
  rw [← List.cons_append, ← List.append_assoc] at cut
  refine .segment cut place.symm fun s hs => ?_
  rw [List.append_assoc] at cut
  rw [← split_before cut place] at hs
  by_contra hresumes
  exact hx (.resumed hs (by simpa using hresumes))

/-- A comment that starts in a line directive ends there. -/
theorem blankable_of_directive {before cs after front back : List Char} {c : Char}
    {segments later : List Segment}
    (hx : ¬Entangled before (c :: cs) after) (hreached : Skimmed before (c :: (cs ++ after)))
    (hskim : skim c (cs ++ after) = (true, cs.length))
    (cut : split (before ++ c :: (cs ++ after)) =
      segments ++ ⟨.directive, front ++ c :: back⟩ :: later)
    (place : before = segments.flatMap Segment.text ++ front) :
      Blankable before (c :: cs) after := by
  have hwhole : before ++ c :: (cs ++ after) = before ++ c :: cs ++ after := by simp
  have htext : Segment.text ⟨.directive, front ++ c :: back⟩ = front ++ c :: back := rfl
  have hrest : cs ++ after = back ++ later.flatMap Segment.text :=
    (List.cons.inj (Stands.rest_eq cut place htext)).2
  have hle : cs.length ≤ back.length := by
    by_contra hpast
    subst place
    refine hx (.astride (hwhole ▸ cut) (hrest ▸ hreached) (Nat.le_refl _) ?_)
    rw [← hrest, hskim]
    exact Nat.lt_of_not_le hpast
  obtain ⟨tail, rfl⟩ : cs <+: back :=
    List.prefix_of_prefix_length_le (List.prefix_append cs after)
      (hrest ▸ List.prefix_append back _) hle
  obtain rfl : after = tail ++ later.flatMap Segment.text := by
    rw [List.append_assoc] at hrest
    exact List.append_cancel_left hrest
  have hcut : split (before ++ c :: cs ++ (tail ++ later.flatMap Segment.text)) =
      segments ++ ⟨.directive, front ++ c :: cs ++ tail⟩ :: later := by
    rw [← hwhole, cut, List.append_assoc front, List.cons_append]
  by_cases hlines : SameContinuations (before ++ c :: cs ++ (tail ++ later.flatMap Segment.text))
      (before ++ blanked (c :: cs) ++ (tail ++ later.flatMap Segment.text))
  · have hopens := measure_opens c (cs ++ (tail ++ later.flatMap Segment.text))
    rw [measure_of_skim hskim] at hopens
    exact .directive hcut place (congrArg some (beq_iff_eq.1 hopens)) hlines
  · exact absurd (.continued hcut place hlines) hx

/-- Blanks can stand in place of a comment, unless it is entangled. -/
theorem IsComment.blankable {before comment after : List Char} (h : IsComment before comment after)
    (hx : ¬Entangled before comment after) : Blankable before comment after := by
  obtain ⟨c, cs, rfl, hskim⟩ := h.complete
  have hwhole : before ++ c :: (cs ++ after) = before ++ c :: cs ++ after := by simp
  have hreached : Skimmed before (c :: (cs ++ after)) := h.reached
  cases hreached.stands hx hwhole (Nat.le_refl _) with
  | @inside segments later s front back _ cut place text ne how =>
    rcases back with _ | ⟨d, back⟩
    · exact absurd rfl ne
    obtain ⟨rfl, -⟩ := List.cons.inj (Stands.rest_eq cut place text)
    rcases how with rfl | hdirective | hplain
    · rw [List.append_nil] at place
      exact blankable_of_segment hx hskim cut place
    · rcases s with ⟨kind, stext⟩
      obtain rfl : kind = .directive := hdirective
      obtain rfl : stext = front ++ c :: back := text
      exact blankable_of_directive hx hreached hskim cut place
    · rw [skim_of_isPlain (hplain c (List.mem_cons_self ..))] at hskim
      cases (Prod.mk.inj hskim).1

namespace Extraction

/-- **Comments are blanks.** With blanks in place of a comment, extraction fails as before or
declares the same names. -/
theorem outcome_blanked {before comment after : List Char} (h : IsComment before comment after)
    (hx : ¬Entangled before comment after)
    (ha : Addressable (String.ofList (before ++ comment ++ after))) :
    (ofSource (String.ofList (before ++ blanked comment ++ after))).outcome.map Signature.bare =
      (ofSource (String.ofList (before ++ comment ++ after))).outcome.map Signature.bare := by
  have hb : Addressable (String.ofList (before ++ blanked comment ++ after)) := by
    have hle := byteLength_blanked_le comment
    rw [Addressable, ← Text.byteLength_toList, String.toList_ofList, Text.byteLength_append,
      Text.byteLength_append] at ha ⊢
    omega
  refine outcome_bare_of_alike ha hb ?_ (ofSource?_eq ha) (ofSource?_eq hb)
  rw [String.toList_ofList, String.toList_ofList]
  exact (h.blankable hx).alike

/-- A comment with a quote in it, behind the name of a port. -/
theorem outcome_blanked_name :
    (ofSource "module m(input a     , b); endmodule").outcome.map Signature.bare =
      (ofSource "module m(input a/*\"*/, b); endmodule").outcome.map Signature.bare := by
  have hsource : String.ofList
      ("module m(input a".toList ++ "/*\"*/".toList ++ ", b); endmodule".toList) =
      "module m(input a/*\"*/, b); endmodule" := by decide
  have hblanked : String.ofList
      ("module m(input a".toList ++ blanked "/*\"*/".toList ++ ", b); endmodule".toList) =
      "module m(input a     , b); endmodule" := by decide
  have hlast : (split "module m(input a".toList).getLast? = some ⟨.lexeme .identifier, ['a']⟩ := by
    cbv
  have hdirective :
      (split ("module m(input a".toList ++ "/*\"*/".toList ++ ", b); endmodule".toList)).all
      (·.kind != .directive) = true := by cbv
  have hnone : ∀ {segments later : List Segment} {text : List Char},
      split ("module m(input a".toList ++ "/*\"*/".toList ++ ", b); endmodule".toList) ≠
        segments ++ ⟨.directive, text⟩ :: later := by
    intro segments later text cut
    rw [cut] at hdirective
    simp at hdirective
  have hcomment : IsComment "module m(input a".toList "/*\"*/".toList ", b); endmodule".toList :=
    ⟨(Skimmed.start _).append_of_isPlain (by decide), '/', "*\"*/".toList, rfl, by decide⟩
  have hx : ¬Entangled "module m(input a".toList "/*\"*/".toList ", b); endmodule".toList := by
    rintro (⟨last, resumes⟩ | ⟨cut, -⟩ | ⟨cut, -⟩)
    · obtain rfl := Option.some.inj (hlast.symm.trans last)
      cases resumes
    · exact hnone cut
    · exact hnone cut
  have h := outcome_blanked hcomment hx (by rw [hsource]; decide)
  rwa [hsource, hblanked] at h

/-- A comment between a conditional directive and its name: behind blanks the name belongs to the
directive, and behind the comment it is read as a port. -/
theorem not_forall_outcome_blanked :
    ¬∀ before comment after : List Char, IsComment before comment after →
      Addressable (String.ofList (before ++ comment ++ after)) →
      (ofSource (String.ofList (before ++ blanked comment ++ after))).outcome.map Signature.bare =
        (ofSource (String.ofList (before ++ comment ++ after))).outcome.map Signature.bare := by
  intro h
  have hcomment : IsComment "module m(input a \x60ifdef".toList "/**/".toList
      "W , b \x60endif ); endmodule".toList :=
    ⟨(Skimmed.start _).append_of_isPlain (by decide), '/', "**/".toList, rfl, by decide⟩
  have hsource : String.ofList ("module m(input a \x60ifdef".toList ++ "/**/".toList ++
      "W , b \x60endif ); endmodule".toList) =
    "module m(input a \x60ifdef/**/W , b \x60endif ); endmodule" := by
    decide
  have hblanked : String.ofList ("module m(input a \x60ifdef".toList ++ blanked "/**/".toList ++
      "W , b \x60endif ); endmodule".toList) =
    "module m(input a \x60ifdef    W , b \x60endif ); endmodule" := by
    decide
  have hread : ofSource "module m(input a \x60ifdef/**/W , b \x60endif ); endmodule" =
      ⟨.ok ⟨"m", [], [⟨"W", ""⟩, ⟨"b", ""⟩], [], []⟩, []⟩ := by
    rw [ofSource, ofSource?_eq_ofLexing?]
    cbv
  have hread' : ofSource "module m(input a \x60ifdef    W , b \x60endif ); endmodule" =
      ⟨.ok ⟨"m", [], [⟨"a", ""⟩, ⟨"b", ""⟩], [], []⟩, []⟩ := by
    rw [ofSource, ofSource?_eq_ofLexing?]
    cbv
  have hsame := h _ _ _ hcomment (by rw [hsource]; decide)
  rw [hsource, hblanked, hread, hread'] at hsame
  exact absurd hsame (by decide)

end Extraction

end VerilogScaffold
