import VerilogScaffold.Proofs.Blanking
import VerilogScaffold.Proofs.Safety

/-!
# Blanks in place of comments

A comment is one segment, which makes no token, and so do blanks. With blanks in its place the
tokens are alike (`Blankable.alike`), wherever the comment stands but in two places, where what is
in front of it would go on over blanks: between a number's base and its digits, and between a
conditional directive and its name.

A line directive is skipped to the end of its line, so a comment there is no segment of its own: it
is a part of the directive, and whether it ends in a backslash decides whether the next line is
skipped as well. Blanks can stand in its place if they leave that as it is.
-/

namespace VerilogScaffold

open Text Segment

/-- A text with a blank in place of each character, on as many lines. -/
def blanked (cs : List Char) : List Char := cs.map fun c => if c = '\n' then c else ' '

/-- Texts that are as long as each other and end their lines at the same places. -/
def SameLines : List Char → List Char → Prop := List.Forall₂ fun c d => c = '\n' ↔ d = '\n'

/-- Whether a line ends in a backslash in one text if the same line does so in the other. -/
def SameContinuations (cs ds : List Char) : Prop :=
  ∀ n, cs[n]? = some '\n' → endsInBackslash (ds.take n) = endsInBackslash (cs.take n)

/-- Where blanks can stand in place of a comment. -/
inductive Blankable (before comment after : List Char) : Prop
  /-- The comment is a segment, and the segment before it does not go on over blanks. -/
  | segment {segments later : List Segment}
      (cut : split (before ++ comment ++ after) = segments ++ ⟨.comment true, comment⟩ :: later)
      (front : segments.flatMap Segment.text = before)
      (stops : ∀ s, segments.getLast? = some s → s.resumes (blanked comment ++ after) = false)
  /-- The comment is a part of a line directive, and blanks change for no line whether it is
  continued. -/
  | directive {segments later : List Segment} {front back : List Char}
      (cut : split (before ++ comment ++ after) =
        segments ++ ⟨.directive, front ++ comment ++ back⟩ :: later)
      (front : before = segments.flatMap Segment.text ++ front)
      (slash : comment.head? = some '/')
      (continuations : SameContinuations (before ++ comment ++ after)
        (before ++ blanked comment ++ after))

/-! ## Blanks -/

section Blanked

variable {cs : List Char}

theorem isAsciiBlank_of_mem_blanked : ∀ c ∈ blanked cs, isAsciiBlank c = true := by
  intro c hc
  obtain ⟨d, -, rfl⟩ := List.mem_map.1 hc
  split
  · rename_i hd
    rw [hd]
    rfl
  · rfl

theorem length_blanked (cs : List Char) : (blanked cs).length = cs.length := List.length_map ..

/-- Blanks are as many bytes as characters. -/
theorem byteLength_of_isAsciiBlank (h : ∀ c ∈ cs, isAsciiBlank c = true) :
    Text.byteLength cs = cs.length := by
  induction cs with
  | nil => rfl
  | cons c cs ih =>
    obtain ⟨hc, hcs⟩ := List.forall_mem_cons.1 h
    simp only [isAsciiBlank, Bool.or_eq_true, beq_iff_eq] at hc
    rw [Text.byteLength, ih hcs, List.length_cons, Nat.add_comm]
    rcases hc with (((rfl | rfl) | rfl) | rfl) | rfl <;> rfl

theorem byteLength_blanked_le (cs : List Char) :
    Text.byteLength (blanked cs) ≤ Text.byteLength cs := by
  rw [byteLength_of_isAsciiBlank isAsciiBlank_of_mem_blanked, length_blanked]
  exact length_le_byteLength cs

theorem SameLines.refl (cs : List Char) : SameLines cs cs := List.forall₂_same.2 fun _ _ => Iff.rfl

theorem SameLines.append {as bs cs ds : List Char} (h : SameLines as bs) (h' : SameLines cs ds) :
    SameLines (as ++ cs) (bs ++ ds) := List.rel_append h h'

/-- Blanks in place of a text stand on the same lines. -/
theorem sameLines_blanked (cs : List Char) : SameLines cs (blanked cs) := by
  induction cs with
  | nil => exact .nil
  | cons c cs ih =>
    refine .cons ?_ ih
    by_cases hc : c = '\n'
    · simp [hc]
    · simp [hc]

end Blanked

/-! ## Comments in line directives -/

namespace Segment

variable {front cs back F : List Char}

theorem lineEnd_cons {c : Char} (hc : c ≠ '\n') (continued : Bool) (cs : List Char) :
    lineEnd continued (c :: cs) =
      lineEnd (if Text.isAsciiBlank c then continued else c == '\\') cs + 1 := by
  rw [lineEnd, if_neg hc]
  split <;> rfl

/-- A line that starts behind a word of a directive is continued in both texts or in neither. -/
theorem continuedAfter_of_sameContinuations {pre word cs ds : List Char}
    (h : SameContinuations (pre ++ '\x60' :: (word ++ cs)) (pre ++ '\x60' :: (word ++ ds)))
    (hword : ∀ c ∈ word, isWordChar c = true) (n : Nat) (hn : cs[n]? = some '\n') :
    continuedAfter false (ds.take n) = continuedAfter false (cs.take n) := by
  have hcut : ∀ es, pre ++ '\x60' :: (word ++ es) = (pre ++ '\x60' :: word) ++ es :=
    fun es => by simp
  have hends : endsInBackslash (pre ++ '\x60' :: word) = false := by
    rw [endsInBackslash_append_eq, continuedAfter]
    exact ByteLexer.continuedAfter_of_isWordChar hword
  have := h ((pre ++ '\x60' :: word).length + n) (by
    rw [hcut, List.getElem?_append_right (Nat.le_add_right _ _), Nat.add_sub_cancel_left, hn])
  rwa [hcut, hcut, List.take_length_add_append, List.take_length_add_append,
    endsInBackslash_append_eq (pre ++ '\x60' :: word),
    endsInBackslash_append_eq (pre ++ '\x60' :: word),
    hends] at this

/-- A line directive ends at the same place in texts with the same lines, if these are continued in
both. -/
theorem lineEnd_congr {cs ds : List Char} {continued continued' : Bool}
    (hlines : SameLines cs ds)
    (h : ∀ n, cs[n]? = some '\n' →
      continuedAfter continued' (ds.take n) = continuedAfter continued (cs.take n)) :
    lineEnd continued' ds = lineEnd continued cs := by
  induction hlines generalizing continued continued' with
  | nil => rfl
  | @cons c d cs ds hc hlines ih =>
    have hrest := fun n hn => h (n + 1) (by simpa using hn)
    simp only [List.take_succ_cons, continuedAfter] at hrest
    by_cases hnewline : c = '\n'
    · obtain rfl := hc.1 hnewline
      subst hnewline
      obtain rfl : continued' = continued := h 0 rfl
      have hends : lineEnd continued' ds = lineEnd continued' cs := ih hrest
      rw [lineEnd, lineEnd, if_pos rfl, if_pos rfl, hends]
    · rw [lineEnd_cons hnewline, lineEnd_cons fun hd => hnewline (hc.2 hd), ih hrest]

/-- A stretch with a slash in it is no part of a directive but of a line directive. -/
theorem eq_line_of_slash {extent : DirectiveExtent} (cs back : List Char)
    (h : (cs ++ '/' :: back).length ≤ extent.measure (cs ++ '/' :: (back ++ F))) :
    extent = .line := by
  rw [List.length_append, List.length_cons] at h
  cases extent with
  | word => exact absurd h (by simp [DirectiveExtent.measure])
  | wordAndName =>
    have hgap := run_append_cons_le (show isGap '/' = false from rfl) cs (back ++ F)
    have hword := run_append_cons_le (show isWordChar '/' = false from rfl)
      (cs.drop (run isGap (cs ++ '/' :: (back ++ F)))) (back ++ F)
    rw [DirectiveExtent.measure, List.drop_append_of_le_length hgap] at h
    rw [List.length_drop] at hword
    omega
  | line => rfl

/-- A directive starts with a backtick. -/
theorem Fits.exists_backtick {text : List Char} (h : Fits F ⟨.directive, text⟩) :
    ∃ cs, text = '\x60' :: cs := by
  obtain ⟨c, cs, htext, hopens⟩ := h.exists_opens
  obtain rfl := beq_iff_eq.1 hopens
  exact ⟨cs, htext⟩

/-- A directive is its word, and as much behind it as its extent says. -/
theorem fits_directive_iff {word rest : List Char} (hword : ∀ c ∈ word, isWordChar c = true)
    (hrest : startsWith isWordChar (rest ++ F) = false) :
    Fits F ⟨.directive, '\x60' :: (word ++ rest)⟩ ↔
      ∃ extent, directives.lookup (String.ofList word) = some extent ∧
        extent.measure (rest ++ F) = rest.length := by
  have hmeasure := measureBacktick_append hword hrest
  rw [← measure_backtick, ← List.append_assoc] at hmeasure
  constructor
  · rintro ⟨c, cs, htext, hfits⟩
    obtain ⟨rfl, rfl⟩ := List.cons.inj htext
    rw [hmeasure] at hfits
    rcases hextent : directives.lookup (String.ofList word) with _ | extent
    · rw [hextent] at hfits
      cases (Prod.mk.inj hfits).1
    · rw [hextent] at hfits
      have hlength := (Prod.mk.inj hfits).2
      rw [List.length_append] at hlength
      exact ⟨extent, rfl, Nat.add_left_cancel hlength⟩
  · rintro ⟨extent, hextent, hlength⟩
    refine ⟨'\x60', word ++ rest, rfl, ?_⟩
    rw [hmeasure, hextent, Option.elim, hlength, List.length_append]

/-- Blanks in a line directive leave it one segment, if they change for no line whether it is
continued. -/
theorem fits_directive_blanked {pre : List Char} (h : Fits F ⟨.directive, front ++ cs ++ back⟩)
    (hslash : cs.head? = some '/')
    (hlines : SameContinuations (pre ++ (front ++ cs ++ back ++ F))
      (pre ++ (front ++ blanked cs ++ back ++ F))) :
    Fits F ⟨.directive, front ++ blanked cs ++ back⟩ := by
  obtain ⟨ds, htext⟩ := h.exists_backtick
  obtain ⟨cs, rfl⟩ := List.head?_eq_some_iff.1 hslash
  -- the directive starts in front of the comment, since neither starts as the other
  rcases front with _ | ⟨d, front⟩
  · cases (List.cons.inj htext).1
  obtain rfl : d = '\x60' := (List.cons.inj htext).1
  obtain ⟨word, rest, rfl, hword, hrest⟩ := exists_run isWordChar front
  have hstop : ∀ x xs, isWordChar x = false →
      startsWith isWordChar (rest ++ x :: xs ++ back ++ F) = false := by
    intro x xs hx
    rcases rest with _ | ⟨d, rest⟩
    · exact hx
    · exact hrest
  have hcut : ∀ xs, '\x60' :: (word ++ rest) ++ xs ++ back = '\x60' ::
      (word ++ (rest ++ xs ++ back)) := by
    simp
  rw [hcut] at h ⊢
  obtain ⟨extent, hextent, hlength⟩ := (fits_directive_iff hword (hstop '/' cs rfl)).1 h
  have hline : rest ++ '/' :: cs ++ back = rest ++ '/' :: (cs ++ back) := by simp
  obtain rfl : extent = .line := by
    rw [hline, List.append_assoc, List.cons_append] at hlength
    exact eq_line_of_slash rest (cs ++ back) hlength.ge
  refine (fits_directive_iff hword (hstop ' ' (blanked cs) rfl)).2 ⟨.line, hextent, ?_⟩
  have hends : lineEnd false (rest ++ blanked ('/' :: cs) ++ back ++ F) =
      lineEnd false (rest ++ '/' :: cs ++ back ++ F) := by
    have hcut' : ∀ xs, pre ++ ('\x60' :: (word ++ rest) ++ xs ++ back ++ F) =
        pre ++ '\x60' :: (word ++ (rest ++ xs ++ back ++ F)) := fun xs => by simp
    rw [hcut', hcut'] at hlines
    refine lineEnd_congr ?_ (continuedAfter_of_sameContinuations hlines hword)
    exact (((SameLines.refl rest).append (sameLines_blanked ('/' :: cs))).append
      (.refl back)).append (.refl F)
  calc lineEnd false (rest ++ blanked ('/' :: cs) ++ back ++ F)
      = (rest ++ '/' :: cs ++ back).length := hends.trans hlength
    _ = (rest ++ blanked ('/' :: cs) ++ back).length := by
      simp only [List.length_append, length_blanked]

end Segment

/-! ## Texts with a comment, and with blanks in its place -/

/-- A comment starts with a slash. -/
theorem Segment.Fits.head?_of_comment {s : Segment} {F : List Char} (h : s.Fits F) {closed : Bool}
    (hs : s.kind = .comment closed) : s.text.head? = some '/' := by
  obtain ⟨c, cs, htext, hopens⟩ := h.exists_opens
  rw [hs] at hopens
  rw [htext, beq_iff_eq.1 hopens]
  rfl

theorem Segment.mayReplace_backtick (cs ds : List Char) :
    MayReplace ('\x60' :: cs) ('\x60' :: ds) where
  head _ := rfl
  fraction h := by cases h
  base h := by cases h

/-- One directive in place of another leaves the tokens alike. -/
theorem alike_of_directives {segments : List Segment} {F text text' : List Char}
    (hfront : Fit (text ++ F) segments) (h : Fits F ⟨.directive, text⟩)
    (h' : Fits F ⟨.directive, text'⟩) :
    Alike (lexemes (segments.flatMap Segment.text ++ (text ++ F)))
      (lexemes (segments.flatMap Segment.text ++ (text' ++ F))) := by
  have hskip : ∀ {ds : List Char}, Fits F ⟨.directive, ds⟩ → lexemes (ds ++ F) = lexemes F :=
    fun hds => lexemes_append_of_fits hds
  have hfront' : Fit (text' ++ F) segments := by
    obtain ⟨cs, rfl⟩ := h.exists_backtick
    obtain ⟨ds, rfl⟩ := h'.exists_backtick
    exact hfront.congr (mayReplace_backtick _ _) fun s hs =>
      tolerates_of_head? rfl (hfront.ne_unclosed (List.cons_ne_nil _ _) hs)
  rw [lexemes_append_of_fit hfront, lexemes_append_of_fit hfront', hskip h, hskip h']
  exact (alike_lexemes _ _ segments).append (.refl _)

/-- Blanks in place of a comment leave the tokens alike. -/
theorem Blankable.alike {before comment after : List Char} (h : Blankable before comment after) :
    Alike (lexemes (before ++ comment ++ after))
      (lexemes (before ++ blanked comment ++ after)) := by
  have hfit := fit_split (before ++ comment ++ after)
  have hwhole := flatMap_text_split (before ++ comment ++ after)
  cases h with
  | @segment segments later cut front stops =>
    rw [cut, fit_append] at hfit
    obtain ⟨hfront, hcomment, -⟩ := hfit
    rw [cut, List.flatMap_append, List.flatMap_cons, front, List.append_assoc] at hwhole
    obtain rfl : later.flatMap Segment.text = after :=
      List.append_cancel_left (List.append_cancel_left hwhole)
    rw [List.flatMap_cons, List.append_nil] at hfront
    rw [List.append_nil] at hcomment
    have hslash : comment.head? = some '/' := hcomment.head?_of_comment rfl
    have hblank : startsWith Text.isAsciiBlank
        (blanked comment ++ later.flatMap Segment.text) = true := by
      rcases comment with _ | ⟨c, cs⟩
      · cases hslash
      · have hmem : (if c = '\n' then c else ' ') ∈ blanked (c :: cs) := List.mem_cons_self ..
        exact isAsciiBlank_of_mem_blanked _ hmem
    have hrest : lexemes (blanked comment ++ later.flatMap Segment.text) =
        lexemes (comment ++ later.flatMap Segment.text) := by
      rw [lexemes_append_of_blank isAsciiBlank_of_mem_blanked, lexemes_append_of_fits hcomment]
      rfl
    rw [← front, List.append_assoc, List.append_assoc]
    refine alike_of_blank hfront hblank (.inr ?_) (fun _ => stops) hrest
    rw [List.head?_append, hslash]
    rfl
  | @directive segments later front back cut front' slash continuations =>
    rw [cut, fit_append] at hfit
    obtain ⟨hfront, hdirective, hlater⟩ := hfit
    rw [cut, List.flatMap_append, List.flatMap_cons, front'] at hwhole
    obtain rfl : back ++ later.flatMap Segment.text = after := by
      simpa using hwhole
    rw [List.append_nil] at hdirective
    rw [List.flatMap_cons, List.append_nil] at hfront
    have hcut : ∀ cs, before ++ cs ++ (back ++ later.flatMap Segment.text) =
        segments.flatMap Segment.text ++
          (front ++ cs ++ back ++ later.flatMap Segment.text) := fun cs => by
      simp [front']
    rw [hcut, hcut] at continuations ⊢
    have hblanked := fits_directive_blanked hdirective slash continuations
    exact alike_of_directives hfront hdirective hblanked

end VerilogScaffold
