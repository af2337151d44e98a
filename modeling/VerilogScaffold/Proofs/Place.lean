import VerilogScaffold.Proofs.Boundary
import VerilogScaffold.Source.File

/-!
# Every offset has a line

`position?` and `lineText?` look places up the way an index of line starts and slices of the text
allow, and each has steps that could fail: the entries that a search asks for, a step back from the
start of the index, the distance to a line start, four slices. None of them does, on any text and
any offset: `position?_eq` and `lineText?_eq` give what they find.
-/

namespace VerilogScaffold

namespace Text

@[simp] theorem byteLength_reverse (cs : List Char) : byteLength cs.reverse = byteLength cs := by
  induction cs with
  | nil => rfl
  | cons c cs ih => simp [ih, Nat.add_comm]

theorem charsBefore_prefix (n : Nat) (cs : List Char) : charsBefore n cs <+: cs := by
  induction cs generalizing n with
  | nil => exact List.nil_prefix
  | cons c cs ih =>
    rw [charsBefore]
    split
    · exact List.cons_prefix_cons.2 ⟨rfl, ih _⟩
    · exact List.nil_prefix

theorem charsBefore_append (xs ys : List Char) : charsBefore (byteLength xs) (xs ++ ys) = xs := by
  induction xs with
  | nil =>
    rcases ys with _ | ⟨c, ys⟩
    · rfl
    · have hpos := c.utf8Size_pos
      show charsBefore 0 (c :: ys) = []
      rw [charsBefore, if_neg (by omega)]
  | cons c xs ih =>
    rw [byteLength_cons, List.cons_append, charsBefore, if_pos (by omega),
      Nat.add_sub_cancel_left, ih]

end Text

namespace SourceFile

/-! ## Positions -/

theorem lt_of_mem_lineStartsFrom {start n : Nat} {cs : List Char}
    (h : n ∈ lineStartsFrom start cs) : start < n := by
  induction cs generalizing start with
  | nil => simp [lineStartsFrom] at h
  | cons c cs ih =>
    have hc := c.utf8Size_pos
    rw [lineStartsFrom] at h
    split at h
    · rcases List.mem_cons.1 h with rfl | h
      · omega
      · have := ih h
        omega
    · have := ih h
      omega

theorem lineStartsFrom_pairwise (start : Nat) (cs : List Char) :
    (lineStartsFrom start cs).Pairwise (· < ·) := by
  induction cs generalizing start with
  | nil => exact .nil
  | cons c cs ih =>
    rw [lineStartsFrom]
    split
    · exact .cons (fun n hn => lt_of_mem_lineStartsFrom hn) (ih _)
    · exact ih _

/-- Lines start one after the other. -/
theorem lineStarts_pairwise (content : String) : (lineStarts content).Pairwise (· < ·) :=
  .cons (fun _ hn => lt_of_mem_lineStartsFrom hn) (lineStartsFrom_pairwise 0 _)

/-- An increasing list falls into what is below a bound and what is not. -/
theorem exists_below {starts : List Nat} (h : starts.Pairwise (· < ·)) (bound : Nat) :
    ∃ below above, starts = below ++ above ∧ (∀ n ∈ below, n < bound) ∧ ∀ n ∈ above, bound ≤ n := by
  induction starts with
  | nil => exact ⟨[], [], rfl, by simp, by simp⟩
  | cons n starts ih =>
    obtain ⟨hn, hstarts⟩ := List.pairwise_cons.1 h
    by_cases hbound : n < bound
    · obtain ⟨below, above, rfl, hbelow, habove⟩ := ih hstarts
      exact ⟨n :: below, above, rfl, by simpa [hbound] using hbelow, habove⟩
    · refine ⟨[], n :: starts, rfl, by simp, fun m hm => ?_⟩
      rcases List.mem_cons.1 hm with rfl | hm
      · omega
      · have := hn m hm
        omega

/-- Entries that are not below the value stand behind those that are. -/
theorem length_le_of_getElem? {below above : List Nat} {value i n : Nat}
    (hbelow : ∀ n ∈ below, n < value)
    (hentry : (below ++ above)[i]? = some n) (hn : value ≤ n) : below.length ≤ i := by
  refine Nat.not_lt.1 fun hlt => ?_
  rw [List.getElem?_append_left hlt] at hentry
  have := hbelow n (List.mem_of_getElem? hentry)
  omega

/-- Entries that are below the value stand in front of those that are not. -/
theorem lt_length_of_getElem? {below above : List Nat} {value i n : Nat}
    (habove : ∀ n ∈ above, value ≤ n)
    (hentry : (below ++ above)[i]? = some n) (hn : n < value) : i < below.length := by
  refine Nat.not_le.1 fun hle => ?_
  rw [List.getElem?_append_right hle] at hentry
  have := habove n (List.mem_of_getElem? hentry)
  omega

/-- Of the entries that are not below the value, only the first can be it. -/
theorem eq_length_of_getElem? {below above : List Nat} {value i : Nat}
    (hbelow : ∀ n ∈ below, n < value)
    (habove : ∀ n ∈ above, value ≤ n) (hsorted : above.Pairwise (· < ·))
    (hentry : (below ++ above)[i]? = some value) : i = below.length ∧ above.head? = some value := by
  have hle := length_le_of_getElem? hbelow hentry (Nat.le_refl _)
  rw [List.getElem?_append_right hle] at hentry
  rcases above with _ | ⟨first, above⟩
  · simp at hentry
  · rcases hindex : i - below.length with _ | j <;> rw [hindex] at hentry
    · exact ⟨by omega, hentry⟩
    · have hgreater := (List.pairwise_cons.1 hsorted).1 value (List.mem_of_getElem? hentry)
      have hfirst := habove first (List.mem_cons_self ..)
      omega

/-- A search finds the value where it stands, and ends between what is below it and what is not
where it does not. -/
theorem search?_append {below above : List Nat} {value low high : Nat}
    (hbelow : ∀ n ∈ below, n < value)
    (habove : ∀ n ∈ above, value ≤ n) (hsorted : above.Pairwise (· < ·)) (hlow : low ≤ below.length)
    (hhigh : below.length ≤ high) (hsize : high ≤ (below ++ above).length)
    (hhit : above.head? = some value → below.length < high) :
    search? (below ++ above).toArray value low high =
      some (if above.head? = some value then .entry below.length else .gap below.length) := by
  -- every step keeps the end of `below` between the bounds, and the value too, if it stands there
  fun_induction search? (below ++ above).toArray value low high with
  | case1 low high hlt middle hnone =>
    rw [List.getElem?_toArray, List.getElem?_eq_none_iff] at hnone
    omega
  | case2 low high hlt middle hentry =>
    rw [List.getElem?_toArray] at hentry
    obtain ⟨hmiddle, hhead⟩ := eq_length_of_getElem? hbelow habove hsorted hentry
    rw [if_pos hhead, hmiddle]
  | case3 low high hlt middle entry hentry hne hless ih =>
    rw [List.getElem?_toArray] at hentry
    exact ih (lt_length_of_getElem? habove hentry hless) hhigh hsize hhit
  | case4 low high hlt middle entry hentry hne hgreater ih =>
    rw [List.getElem?_toArray] at hentry
    have hle := length_le_of_getElem? hbelow hentry (Nat.not_lt.1 hgreater)
    refine ih hlow hle (by omega) fun hhead => Nat.lt_of_le_of_ne hle fun heq => hne ?_
    rw [← heq, List.getElem?_append_right (Nat.le_refl _), Nat.sub_self, ← List.head?_eq_getElem?,
      hhead] at hentry
    exact (Option.some.inj hentry).symm
  | case5 low high hge =>
    have hmiss : above.head? ≠ some value := fun hhead => by
      have := hhit hhead
      omega
    rw [if_neg hmiss, show low = below.length by omega]

/-- The lookup of a position never fails, and finds the last line that starts at or before it. -/
theorem position?_eq (f : SourceFile) (offset : Nat) :
    f.position? offset = some (f.position offset) := by
  obtain ⟨below, above, hsplit, hbelow, habove⟩ :=
    exists_below (lineStarts_pairwise f.content) offset
  have hsorted := lineStarts_pairwise f.content
  rw [hsplit] at hsorted
  have hincreasing := (List.pairwise_append.1 hsorted).2.1
  have hsearch := search?_append hbelow habove hincreasing (Nat.zero_le below.length)
    (by simp) (Nat.le_refl (below ++ above).length) fun hhead => by
      obtain ⟨rest, rfl⟩ := List.head?_eq_some_iff.1 hhead
      simp
  have htake : (below ++ above).takeWhile (· ≤ offset) = below ++ above.takeWhile (· ≤ offset) :=
    List.takeWhile_append_of_pos fun n hn => decide_eq_true (Nat.le_of_lt (hbelow n hn))
  simp only [position?, position, hsplit, List.size_toArray, hsearch, htake, List.getElem?_toArray]
  by_cases hhit : above.head? = some offset
  · -- a line starts at the offset
    obtain ⟨above, rfl⟩ := List.head?_eq_some_iff.1 hhit
    have hnone : above.takeWhile (· ≤ offset) = [] := by
      rcases above with _ | ⟨n, above⟩
      · rfl
      · have := (List.pairwise_cons.1 hincreasing).1 n (List.mem_cons_self ..)
        exact List.takeWhile_cons_of_neg (by simpa using this)
    simp [hnone]
  · -- the line starts before the offset; the first line does
    have hnone : above.takeWhile (· ≤ offset) = [] := by
      rcases above with _ | ⟨n, above⟩
      · rfl
      · have hle := habove n (List.mem_cons_self ..)
        have hne : n ≠ offset := fun h => hhit (congrArg some h)
        exact List.takeWhile_cons_of_neg (by simp only [decide_eq_true_eq]; omega)
    obtain ⟨init, last, rfl⟩ : ∃ init last, below = init ++ [last] := by
      rcases List.eq_nil_or_concat below with rfl | ⟨init, last, rfl⟩
      · rw [List.nil_append] at hsplit
        subst hsplit
        have hzero := habove 0 (List.mem_cons_self ..)
        exact absurd (congrArg some (Nat.le_zero.1 hzero).symm) hhit
      · exact ⟨init, last, List.concat_eq_append⟩
    have hlast := hbelow last (by simp)
    simp only [if_neg hhit, hnone]
    simp [Nat.le_of_lt hlast]

/-- Locating a span never fails. -/
theorem locate?_eq (f : SourceFile) (s : Span) : f.locate? s = some (f.locate s) := by
  rw [locate?, position?_eq, position?_eq]
  rfl

/-! ## Lines -/

/-- The line of an offset can always be cut out. -/
theorem lineText?_eq (f : SourceFile) (offset : Nat) :
    f.lineText? offset = some (f.lineText offset) := by
  obtain ⟨after, hafter⟩ := Text.charsBefore_prefix offset f.content.toList
  rw [lineText?, lineText]
  generalize Text.charsBefore offset f.content.toList = before at hafter
  -- the part of the line before the offset, and the part after it
  have hfront : (before.reverse.dropWhile (· != '\n')).reverse ++
      (before.reverse.takeWhile (· != '\n')).reverse = before := by
    rw [← List.reverse_append, List.takeWhile_append_dropWhile, List.reverse_reverse]
  have hback := List.takeWhile_append_dropWhile (p := (· != '\n')) (l := after)
  have hbefore : Text.slice? 0 (Text.byteLength before) f.content.toList = some before :=
    Text.slice?_eq_some_iff.2 ⟨[], after, hafter.symm, rfl, by simp⟩
  have hrest : Text.slice? (Text.byteLength before) (Text.byteLength f.content.toList)
      f.content.toList = some after :=
    Text.slice?_eq_some_iff.2 ⟨before, [], by rw [List.append_nil, hafter], rfl, by
      rw [← hafter, Text.byteLength_append]⟩
  have hdrop : f.content.toList.drop before.length = after := by
    rw [← hafter, List.drop_left]
  have hlength := congrArg Text.byteLength hfront
  rw [Text.byteLength_append, Text.byteLength_reverse, Text.byteLength_reverse] at hlength
  have hline : Text.slice?
      (Text.byteLength before - Text.byteLength (before.reverse.takeWhile (· != '\n')))
      (Text.byteLength before + Text.byteLength (after.takeWhile (· != '\n'))) f.content.toList =
        some ((before.reverse.takeWhile (· != '\n')).reverse ++ after.takeWhile (· != '\n')) := by
    refine Text.slice?_eq_some_iff.2 ⟨(before.reverse.dropWhile (· != '\n')).reverse,
      after.dropWhile (· != '\n'), ?_, ?_, ?_⟩
    · rw [← hafter, List.append_assoc, hback, ← List.append_assoc, hfront]
    · rw [Text.byteLength_reverse]
      omega
    · rw [Text.byteLength_append, Text.byteLength_reverse, Text.byteLength_reverse]
      omega
  rw [hdrop]
  simp only [hbefore, hrest, hline, Option.bind_eq_bind, Option.bind_some]
  rfl

end SourceFile

end VerilogScaffold
