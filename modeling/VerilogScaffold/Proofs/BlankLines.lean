import VerilogScaffold.Template.BlankLines
import VerilogScaffold.Text.Layout

/-!
# Texts without gaps

Whether a text that is put together has a gap is found out in one pass over its pieces
(`gapFree_iff`): `newlinesAfter?` carries the number of newlines in the run of blanks that is being
read, and stops at the third. A piece is `Solid` if the pass goes through it from wherever it starts
and ends behind what is no newline. Closing gaps works on either side of what is no blank
independently (`collapseBlankLines_append`).
-/

namespace VerilogScaffold.Text

/-- Whether no run of blanks in a text holds three or more newlines. -/
def GapFree (cs : List Char) : Prop :=
  ∀ before run after, cs = before ++ (run ++ after) → (∀ c ∈ run, isBlank c = true) →
    run.count '\n' ≤ 2

/-- The number of newlines in the run of blanks that a text ends in, if no run holds three. The text
stands behind a run with `n` of them. -/
def newlinesAfter? (n : Nat) : List Char → Option Nat
  | [] => some n
  | c :: cs =>
    if c = '\n' then if n = 2 then none else newlinesAfter? (n + 1) cs
    else newlinesAfter? (if isBlank c then n else 0) cs

variable {c : Char} {cs a b : List Char} {m n : Nat}

@[simp] theorem newlinesAfter?_nil (n : Nat) : newlinesAfter? n [] = some n := rfl

theorem newlinesAfter?_blank (hc : c ≠ '\n') (hblank : isBlank c = true) (n : Nat)
    (cs : List Char) :
    newlinesAfter? n (c :: cs) = newlinesAfter? n cs := by
  rw [newlinesAfter?, if_neg hc, if_pos hblank]

theorem newlinesAfter?_other (hc : isBlank c = false) (n : Nat) (cs : List Char) :
    newlinesAfter? n (c :: cs) = newlinesAfter? 0 cs := by
  have hnewline : c ≠ '\n' := by
    rintro rfl
    cases hc
  rw [newlinesAfter?, if_neg hnewline, if_neg (by simp [hc])]

theorem newlinesAfter?_append (n : Nat) (a b : List Char) :
    newlinesAfter? n (a ++ b) = (newlinesAfter? n a).bind (newlinesAfter? · b) := by
  induction a generalizing n with
  | nil => rfl
  | cons c a ih =>
    rw [List.cons_append, newlinesAfter?, newlinesAfter?]
    split
    · split
      · rfl
      · exact ih (n + 1)
    · exact ih _

/-! ## Runs of blanks -/

/-- A pass that does not stop at a run of blanks has counted at most two newlines, the earlier ones
among them. -/
theorem add_count_le_of_newlinesAfter? {run : List Char} (hrun : ∀ c ∈ run, isBlank c = true)
    (hn : n ≤ 2) (h : newlinesAfter? n (run ++ cs) = some m) : n + run.count '\n' ≤ 2 := by
  induction run generalizing n with
  | nil => simpa using hn
  | cons c run ih =>
    have hrest : ∀ d ∈ run, isBlank d = true := fun d hd => hrun d (List.mem_cons_of_mem _ hd)
    by_cases hc : c = '\n'
    · subst hc
      rw [List.cons_append, newlinesAfter?, if_pos rfl] at h
      split at h
      · cases h
      · have := ih hrest (by omega) h
        rw [List.count_cons_self]
        omega
    · rw [List.cons_append, newlinesAfter?_blank hc (hrun c (List.mem_cons_self ..))] at h
      rw [List.count_cons_of_ne hc]
      exact ih hrest hn h

/-- The run of blanks that a pass starts in, if it stops. -/
theorem exists_run_of_newlinesAfter? (hn : n ≤ 2) (h : newlinesAfter? n cs = none) :
    ∃ before run after, cs = before ++ (run ++ after) ∧ (∀ c ∈ run, isBlank c = true) ∧
      (2 < run.count '\n' ∨ before = [] ∧ 2 < n + run.count '\n') := by
  induction cs generalizing n with
  | nil => cases h
  | cons c cs ih =>
    by_cases hc : c = '\n'
    · subst hc
      rw [newlinesAfter?, if_pos rfl] at h
      split at h
      · exact ⟨[], ['\n'], cs, rfl, by decide, .inr ⟨rfl, by rw [‹n = 2›]; decide⟩⟩
      · obtain ⟨before, run, after, rfl, hrun, hcount | ⟨rfl, hcount⟩⟩ := ih (by omega) h
        · exact ⟨'\n' :: before, run, after, rfl, hrun, .inl hcount⟩
        · refine ⟨[], '\n' :: run, after, rfl, List.forall_mem_cons.2 ⟨rfl, hrun⟩, .inr ⟨rfl, ?_⟩⟩
          rw [List.count_cons_self]
          omega
    · by_cases hblank : isBlank c = true
      · rw [newlinesAfter?_blank hc hblank] at h
        obtain ⟨before, run, after, rfl, hrun, hcount | ⟨rfl, hcount⟩⟩ := ih hn h
        · exact ⟨c :: before, run, after, rfl, hrun, .inl hcount⟩
        · refine ⟨[], c :: run, after, rfl, List.forall_mem_cons.2 ⟨hblank, hrun⟩, .inr ⟨rfl, ?_⟩⟩
          rwa [List.count_cons_of_ne hc]
      · rw [newlinesAfter?_other (by simpa using hblank)] at h
        obtain ⟨before, run, after, rfl, hrun, hcount | ⟨rfl, hcount⟩⟩ := ih (Nat.zero_le 2) h
        · exact ⟨c :: before, run, after, rfl, hrun, .inl hcount⟩
        · exact ⟨[c], run, after, rfl, hrun, .inl (by omega)⟩

/-- The pass over a text without gaps does not stop. -/
theorem GapFree.exists_newlinesAfter? (h : GapFree cs) : ∃ m, newlinesAfter? 0 cs = some m := by
  rcases hcs : newlinesAfter? 0 cs with _ | m
  · obtain ⟨before, run, after, hcut, hrun, hcount⟩ :=
      exists_run_of_newlinesAfter? (Nat.zero_le 2) hcs
    have := h before run after hcut hrun
    rcases hcount with hcount | ⟨-, hcount⟩ <;> omega
  · exact ⟨m, rfl⟩

theorem le_two_of_newlinesAfter? (hn : n ≤ 2) (h : newlinesAfter? n cs = some m) : m ≤ 2 := by
  induction cs generalizing n with
  | nil =>
    obtain rfl := Option.some.inj h
    exact hn
  | cons c cs ih =>
    rw [newlinesAfter?] at h
    split at h
    · split at h
      · cases h
      · exact ih (by omega) h
    · refine ih ?_ h
      split <;> omega

/-- A text that the pass does not stop in has no gap. -/
theorem gapFree_iff : GapFree cs ↔ ∃ m, newlinesAfter? 0 cs = some m := by
  refine ⟨GapFree.exists_newlinesAfter?, ?_⟩
  rintro ⟨m, h⟩ before run after rfl hrun
  rw [newlinesAfter?_append] at h
  obtain ⟨k, hbefore, h⟩ := Option.bind_eq_some_iff.1 h
  have hk : k ≤ 2 := le_two_of_newlinesAfter? (Nat.zero_le 2) hbefore
  have := add_count_le_of_newlinesAfter? hrun hk h
  omega

theorem GapFree.of_append (h : GapFree (a ++ b)) : GapFree b := by
  rintro before run after rfl hrun
  exact h (a ++ before) run after (by rw [List.append_assoc]) hrun

/-- Blanks with at most two newlines among them have no gap. -/
theorem gapFree_of_count_le (h : cs.count '\n' ≤ 2) : GapFree cs := by
  rintro before run after rfl -
  simp only [List.count_append] at h
  omega

/-- A text on one line has no gap. -/
theorem gapFree_of_not_mem (h : '\n' ∉ cs) : GapFree cs := by
  rintro before run after rfl -
  have : '\n' ∉ run := fun hrun => h (List.mem_append_right _ (List.mem_append_left _ hrun))
  rw [List.count_eq_zero.2 this]
  exact Nat.zero_le 2

/-! ## Solid texts -/

/-- Whether a text has no gap wherever it stands, and no newline behind its last character that is
no blank. -/
def Solid (cs : List Char) : Prop := ∀ n, newlinesAfter? n cs = some 0

theorem newlinesAfter?_spaces (n k : Nat) : newlinesAfter? n (List.replicate k ' ') = some n := by
  induction k with
  | zero => rfl
  | succ k ih => rw [List.replicate_succ, newlinesAfter?_blank (by decide) rfl, ih]

theorem solid_of_not_blank (hne : cs ≠ []) (h : ∀ c ∈ cs, isBlank c = false) : Solid cs := by
  intro n
  induction cs generalizing n with
  | nil => exact absurd rfl hne
  | cons c cs ih =>
    rw [newlinesAfter?_other (h c (List.mem_cons_self ..))]
    by_cases hnil : cs = []
    · rw [hnil, newlinesAfter?_nil]
    · exact ih hnil (fun d hd => h d (List.mem_cons_of_mem _ hd)) 0

namespace Solid

theorem append (ha : Solid a) (h : newlinesAfter? 0 b = some m) (n : Nat) :
    newlinesAfter? n (a ++ b) = some m := by
  rw [newlinesAfter?_append, ha n, Option.bind_some, h]

theorem behind (hb : Solid b) (h : newlinesAfter? n a = some m) :
    newlinesAfter? n (a ++ b) = some 0 := by
  rw [newlinesAfter?_append, h, Option.bind_some, hb m]

theorem append_solid (ha : Solid a) (hb : Solid b) : Solid (a ++ b) := ha.append (hb 0)

/-- Solid texts that are joined by less than a gap. -/
theorem joinWith {separator : String} (hseparator : newlinesAfter? 0 separator.toList = some m)
    {texts : List String} (hne : texts ≠ []) (h : ∀ t ∈ texts, Solid t.toList) :
    Solid (Text.joinWith separator texts).toList :=
  joinWith_induction (fun ha hb => ha.append (hb.behind hseparator)) hne h

end Solid

/-! ## Closing gaps -/

theorem closeGap_of_count_le {run : List Char} (h : run.count '\n' ≤ 2) : closeGap run = run := by
  rw [closeGap, if_neg (by omega)]

theorem takeWhile_append_of_head? {p : Char → Bool} (h : ∀ c ∈ b.head?, p c = false)
    (a : List Char) :
    (a ++ b).takeWhile p = a.takeWhile p ∧ (a ++ b).dropWhile p = a.dropWhile p ++ b := by
  induction a with
  | nil =>
    rcases b with _ | ⟨c, b⟩
    · exact ⟨rfl, rfl⟩
    · have hc := h c rfl
      simp [hc]
  | cons c a ih =>
    by_cases hc : p c = true
    · simp [hc, ih.1, ih.2]
    · simp [hc]

/-- Gaps are closed in front of what is no blank as if nothing followed. -/
theorem collapseBlankLines_append (h : ∀ c ∈ b.head?, isBlank c = false) (a : List Char) :
    collapseBlankLines (a ++ b) = collapseBlankLines a ++ collapseBlankLines b := by
  fun_induction collapseBlankLines a with
  | case1 => rfl
  | case2 c cs hblank ih =>
    rw [List.cons_append, collapseBlankLines, if_pos hblank, (takeWhile_append_of_head? h cs).1,
      (takeWhile_append_of_head? h cs).2, ih, List.append_assoc]
  | case3 c cs hblank ih =>
    rw [List.cons_append, collapseBlankLines, if_neg hblank, ih, List.cons_append]

end VerilogScaffold.Text
