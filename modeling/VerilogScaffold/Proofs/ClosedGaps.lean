import Mathlib.Data.List.TakeWhile
import VerilogScaffold.Proofs.BlankLines

/-!
# Gaps are closed exactly

A text is made of runs of blanks, each as long as it can be, and of characters that are no blanks.
Closing gaps keeps these characters in their order and sees to each run by itself (`Collapses`): a
run with a gap keeps what stands in front of its first newline and what stands behind its last, and
nothing else in the text is touched.

A run that is closed stays a run of blanks, and the characters on either side of it are still no
blanks, so the runs of the result are the closed ones. None of them has a gap (`Collapses.gapFree`),
and closing gaps once more finds nothing to do.
-/

namespace VerilogScaffold.Text

/-- What becomes of a run of blanks. -/
inductive Closes : List Char → List Char → Prop
  /-- A run with at most two newlines stays. -/
  | kept {run : List Char} (few : run.count '\n' ≤ 2) : Closes run run
  /-- Of three newlines or more, two are left from the first to the last. -/
  | closed {front middle back : List Char} (first : '\n' ∉ front) (third : '\n' ∈ middle)
      (last : '\n' ∉ back) :
      Closes (front ++ '\n' :: (middle ++ '\n' :: back)) (front ++ '\n' :: '\n' :: back)

/-- What becomes of a text whose runs of blanks are closed, each as long as it can be. -/
inductive Collapses : List Char → List Char → Prop
  | nil : Collapses [] []
  | other {c : Char} {cs out : List Char} (solid : isBlank c = false) (others : Collapses cs out) :
      Collapses (c :: cs) (c :: out)
  | run {run closed cs out : List Char} (ne_nil : run ≠ []) (blank : ∀ c ∈ run, isBlank c = true)
      (whole : ∀ c ∈ cs.head?, isBlank c = false) (closes : Closes run closed)
      (others : Collapses cs out) :
      Collapses (run ++ cs) (closed ++ out)

variable {run closed cs out : List Char}

/-! ## Runs of blanks -/

namespace Closes

theorem count_le (h : Closes run closed) : closed.count '\n' ≤ 2 := by
  cases h with
  | kept few => exact few
  | closed first third last => simp [List.count_eq_zero.2 first, List.count_eq_zero.2 last]

theorem subset (h : Closes run closed) : closed ⊆ run := by
  cases h with
  | kept few => exact List.Subset.refl run
  | closed first third last =>
    intro c hc
    simp only [List.mem_append, List.mem_cons] at hc ⊢
    rcases hc with hc | rfl | rfl | hc <;> simp [*]

theorem ne_nil (h : Closes run closed) (hrun : run ≠ []) : closed ≠ [] := by
  cases h with
  | kept few => exact hrun
  | closed first third last => simp

theorem closeGap_eq (h : Closes run closed) : closeGap run = closed := by
  cases h with
  | kept few => exact closeGap_of_count_le few
  | @closed front middle back first third last =>
    have hthird : 1 ≤ middle.count '\n' := List.count_pos_iff.2 third
    have hgap : 3 ≤ (front ++ '\n' :: (middle ++ '\n' :: back)).count '\n' := by
      simp only [List.count_append, List.count_cons_self]
      omega
    have hline : ∀ {cs : List Char}, '\n' ∉ cs → ∀ c ∈ cs, (c != '\n') = true := by
      intro cs hcs c hc
      simpa using fun h : c = '\n' => hcs (h ▸ hc)
    have hfront : (front ++ '\n' :: (middle ++ '\n' :: back)).takeWhile (· != '\n') = front := by
      rw [List.takeWhile_append_of_pos (hline first)]
      simp
    have hback : (front ++ '\n' :: (middle ++ '\n' :: back)).reverse.takeWhile (· != '\n') =
        back.reverse := by
      have hreverse : (front ++ '\n' :: (middle ++ '\n' :: back)).reverse =
          back.reverse ++ '\n' :: (middle.reverse ++ '\n' :: front.reverse) := by
        simp
      rw [hreverse, List.takeWhile_append_of_pos (hline (by simpa using last))]
      simp
    rw [closeGap, if_pos hgap, hfront, hback, List.reverse_reverse]

end Closes

/-- A run of blanks closes in one way. -/
theorem closes_iff : Closes run closed ↔ closeGap run = closed := by
  refine ⟨Closes.closeGap_eq, ?_⟩
  rintro rfl
  suffices hcloses : ∃ closed, Closes run closed by
    obtain ⟨closed, h⟩ := hcloses
    rwa [h.closeGap_eq]
  by_cases hgap : run.count '\n' ≤ 2
  · exact ⟨run, .kept hgap⟩
  · have hfirst : '\n' ∈ run := List.count_pos_iff.1 (by omega)
    obtain ⟨front, rest, rfl, hfront⟩ := List.eq_append_cons_of_mem hfirst
    rw [List.count_append, List.count_cons_self, List.count_eq_zero.2 hfront] at hgap
    have hlast : '\n' ∈ rest.reverse := List.mem_reverse.2 (List.count_pos_iff.1 (by omega))
    obtain ⟨back, middle, hrest, hback⟩ := List.eq_append_cons_of_mem hlast
    obtain rfl : rest = middle.reverse ++ '\n' :: back.reverse := by
      rw [← List.reverse_reverse rest, hrest]
      simp
    simp only [List.count_append, List.count_cons_self, List.count_reverse,
      List.count_eq_zero.2 hback] at hgap
    have hthird : '\n' ∈ middle.reverse := List.mem_reverse.2 (List.count_pos_iff.1 (by omega))
    exact ⟨_, .closed hfront hthird (by simpa using hback)⟩

/-! ## Whole texts -/

namespace Collapses

/-- The characters that are no blanks are kept, in their order. -/
theorem filter_eq (h : Collapses cs out) :
    out.filter (fun c => !isBlank c) = cs.filter (fun c => !isBlank c) := by
  induction h with
  | nil => rfl
  | other solid _ ih => rw [List.filter_cons_of_pos (by simpa using solid),
      List.filter_cons_of_pos (by simpa using solid), ih]
  | run ne_nil blank whole closes _ ih =>
    have hnone : ∀ {cs : List Char}, (∀ c ∈ cs, isBlank c = true) →
        cs.filter (fun c => !isBlank c) = [] :=
      fun hcs => List.filter_eq_nil_iff.2 fun c hc => by simp [hcs c hc]
    rw [List.filter_append, List.filter_append, hnone blank, hnone fun c hc =>
      blank c (closes.subset hc), ih]

/-- A result that starts with what is no blank is of a text that starts so. -/
theorem head?_eq (h : Collapses cs out) {c : Char} (hc : out.head? = some c)
    (hsolid : isBlank c = false) :
    cs.head? = some c := by
  cases h with
  | nil => cases hc
  | other => exact hc
  | @run run closed _ _ ne_nil blank _ closes =>
    rcases closed with _ | ⟨d, closed⟩
    · exact absurd rfl (closes.ne_nil ne_nil)
    · obtain rfl := Option.some.inj hc
      rw [blank d (closes.subset (List.mem_cons_self ..))] at hsolid
      cases hsolid

/-- The result has no gap. -/
theorem gapFree (h : Collapses cs out) : GapFree out := by
  rw [gapFree_iff]
  induction h with
  | nil => exact ⟨0, rfl⟩
  | other solid _ ih =>
    rw [newlinesAfter?_other solid]
    exact ih
  | run ne_nil blank whole closes others ih =>
    obtain ⟨k, hk⟩ := (gapFree_of_count_le closes.count_le).exists_newlinesAfter?
    obtain ⟨m, hm⟩ := ih
    -- behind the run stands nothing, or what is no blank
    cases others with
    | nil => exact ⟨k, by rw [List.append_nil, hk]⟩
    | other solid =>
      rw [newlinesAfter?_append, hk, Option.bind_some, newlinesAfter?_other solid,
        ← newlinesAfter?_other solid 0]
      exact ⟨m, hm⟩
    | @run run' _ _ _ ne_nil' blank' =>
      rcases run' with _ | ⟨d, run'⟩
      · exact absurd rfl ne_nil'
      · have hd : isBlank d = false := whole d rfl
        rw [blank' d (List.mem_cons_self ..)] at hd
        cases hd

/-- A text without gaps is its own result. -/
theorem eq_of_gapFree (h : Collapses cs out) (hcs : GapFree cs) : out = cs := by
  induction h with
  | nil => rfl
  | @other c cs out solid _ ih =>
    have hrest : GapFree cs := GapFree.of_append (a := [c]) hcs
    rw [ih hrest]
  | run ne_nil blank whole closes _ ih =>
    have hcount := hcs [] _ _ rfl blank
    rw [← closes.closeGap_eq, closeGap_of_count_le hcount, ih hcs.of_append]

end Collapses

theorem collapseBlankLines_of_blank (hne : run ≠ []) (hblank : ∀ c ∈ run, isBlank c = true) :
    collapseBlankLines run = closeGap run := by
  rcases run with _ | ⟨c, run⟩
  · exact absurd rfl hne
  · obtain ⟨hc, hrun⟩ := List.forall_mem_cons.1 hblank
    have htake : run.takeWhile isBlank = run := List.takeWhile_eq_self_iff.2 hrun
    have hdrop : run.dropWhile isBlank = [] := List.dropWhile_eq_nil_iff.2 hrun
    rw [collapseBlankLines, if_pos hc, htake, hdrop, collapseBlankLines, List.append_nil]

theorem collapses_collapseBlankLines (cs : List Char) : Collapses cs (collapseBlankLines cs) := by
  fun_induction collapseBlankLines cs with
  | case1 => exact .nil
  | case2 c cs hblank ih =>
    have hrun : ∀ d ∈ c :: cs.takeWhile isBlank, isBlank d = true :=
      List.forall_mem_cons.2 ⟨hblank, fun d hd => List.all_eq_true.1 List.all_takeWhile d hd⟩
    have hwhole : ∀ d ∈ (cs.dropWhile isBlank).head?, isBlank d = false := by
      intro d hd
      have := List.head?_dropWhile_not isBlank cs
      rw [Option.mem_def.1 hd] at this
      simpa using this
    have hcut : c :: cs = (c :: cs.takeWhile isBlank) ++ cs.dropWhile isBlank := by
      rw [List.cons_append, List.takeWhile_append_dropWhile]
    rw [hcut]
    exact .run (List.cons_ne_nil c _) hrun hwhole (closes_iff.2 rfl) ih
  | case3 c cs hblank ih => exact .other (by simpa using hblank) ih

/-- A text collapses in one way. -/
theorem collapses_iff : Collapses cs out ↔ collapseBlankLines cs = out := by
  refine ⟨fun h => ?_, fun h => h ▸ collapses_collapseBlankLines cs⟩
  induction h with
  | nil => rw [collapseBlankLines]
  | other solid _ ih => rw [collapseBlankLines, if_neg (by simpa using solid), ih]
  | run ne_nil blank whole closes _ ih =>
    rw [collapseBlankLines_append whole, collapseBlankLines_of_blank ne_nil blank,
      closes.closeGap_eq, ih]

theorem gapFree_collapseBlankLines (cs : List Char) : GapFree (collapseBlankLines cs) :=
  (collapses_collapseBlankLines cs).gapFree

/-- A text stays as it is just if it has no gap. -/
theorem collapseBlankLines_eq_self_iff : collapseBlankLines cs = cs ↔ GapFree cs := by
  constructor
  · intro h
    have := gapFree_collapseBlankLines cs
    rwa [h] at this
  · exact (collapses_collapseBlankLines cs).eq_of_gapFree

theorem collapseBlankLines_of_newlinesAfter? {m : Nat} (h : newlinesAfter? 0 cs = some m) :
    collapseBlankLines cs = cs := collapseBlankLines_eq_self_iff.2 (gapFree_iff.2 ⟨m, h⟩)

/-- **Gaps are closed exactly.** Each run of blanks is closed by itself, as long as it is, and all
else is kept in its order. The result has no gap, so a text is changed just if it has one, and
closing gaps once is enough. -/
theorem collapseBlankLines_exact (cs : List Char) :
    (∀ out, Collapses cs out ↔ collapseBlankLines cs = out) ∧
      (collapseBlankLines cs).filter (fun c => !isBlank c) = cs.filter (fun c => !isBlank c) ∧
      GapFree (collapseBlankLines cs) ∧ (collapseBlankLines cs = cs ↔ GapFree cs) ∧
      collapseBlankLines (collapseBlankLines cs) = collapseBlankLines cs :=
  ⟨fun _ => collapses_iff, (collapses_collapseBlankLines cs).filter_eq,
    gapFree_collapseBlankLines cs,
    collapseBlankLines_eq_self_iff,
    collapseBlankLines_eq_self_iff.2 (gapFree_collapseBlankLines cs)⟩

end VerilogScaffold.Text
