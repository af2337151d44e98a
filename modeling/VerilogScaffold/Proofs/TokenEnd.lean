import VerilogScaffold.Proofs.ByteReader
import VerilogScaffold.Proofs.Padding
import VerilogScaffold.Proofs.SolidBlock

/-!
# Where tokens start and end

Blanks stand between tokens, so a token neither starts with a blank nor ends with one, with few
exceptions (`Segment.Fits.isStray_of_startsInBlank`, `Segment.Fits.endsInBlank`). A number takes the
gap behind its base even where no digits follow; a string literal that its line does not close takes
the rest of the line; and of the Unicode blanks only five separate tokens, so any other may end an
escaped name, or stand alone as a token of its own.

## Shape of the argument

A segment is cut off alone as it is cut off its source (`Fit.nil`), so it is enough to look at texts
that are one token. All of their characters satisfy the test of some run, and no such test holds of
a blank (`isBlank_of_uniform`), except for the gap inside a number.
-/

namespace VerilogScaffold

open Text Segment

namespace Text

/-- Whether the first character of a text is a blank. -/
def startsInBlank (cs : List Char) : Bool := cs.head?.any isBlank

/-- Whether the last character of a text is a blank. -/
def endsInBlank (cs : List Char) : Bool := cs.getLast?.any isBlank

theorem endsInBlank_append {back : List Char} (hback : back ≠ []) (front : List Char) :
    endsInBlank (front ++ back) = endsInBlank back := by
  rw [endsInBlank, List.getLast?_append_of_ne_nil front hback, endsInBlank]

/-- A text without blanks does not end in one. -/
theorem endsInBlank_of_forall {cs : List Char} (h : ∀ c ∈ cs, isBlank c = false) :
    endsInBlank cs = false := by
  rw [endsInBlank]
  rcases hlast : cs.getLast? with _ | c
  · rfl
  · exact h c (List.mem_of_getLast? hlast)

end Text

/-- The tokens that end in a blank: their kinds, and their texts. -/
inductive TokenKind.EndsInBlank : TokenKind → List Char → Prop
  /-- A number without digits, which takes the gap behind its base. -/
  | number {front gap : List Char} {radix : Char} (base : isRadix radix = true)
      (gaps : ∀ c ∈ gap, isGap c = true)
      (ne_nil : gap ≠ []) : EndsInBlank .number (front ++ radix :: gap)
  /-- A name that ends in a blank which separates no tokens. -/
  | escapedIdentifier {name : List Char} {c : Char} (blank : isBlank c = true)
      (inside : isAsciiBlank c = false) :
      EndsInBlank .escapedIdentifier ('\\' :: (name ++ [c]))
  /-- A string literal that its line does not close, up to the end of the line. -/
  | openString {body : List Char} (blank : endsInBlank body = true) :
      EndsInBlank .error ('"' :: body)
  /-- A blank that separates no tokens, alone. -/
  | stray {c : Char} (blank : isBlank c = true) (inside : isAsciiBlank c = false) :
      EndsInBlank .error [c]

variable {c : Char} {cs : List Char}

/-! ## Characters that are no blanks -/

/-- A test for characters of ASCII that holds of no blank among them holds of no blank. -/
theorem isBlank_of_uniform {p : Char → Bool} (hp : Uniform p false)
    (hascii : (List.range 128).all (fun n => !(p (Char.ofNat n) && isBlank (Char.ofNat n))) = true)
    (h : p c = true) : isBlank c = false := by
  have hc := List.all_eq_true.1 hascii c.toNat (List.mem_range.2 (hp.lt_of_eq_true h))
  rw [Char.ofNat_toNat, h, Bool.true_and, Bool.not_eq_true'] at hc
  exact hc

theorem isBlank_of_isDecimal (h : isDecimal c = true) : isBlank c = false :=
  isBlank_of_uniform ByteLexer.uniform_isDecimal (by decide) h

theorem isBlank_of_isRadix (h : isRadix c = true) : isBlank c = false :=
  isBlank_of_uniform ByteLexer.uniform_isRadix (by decide) h

theorem isBlank_of_isBasedDigit (h : isBasedDigit c = true) : isBlank c = false :=
  isBlank_of_uniform ByteLexer.uniform_isBasedDigit (by decide) h

theorem isBlank_of_loneMark? {kind : TokenKind} (h : loneMark? c = some kind) :
    isBlank c = false := by
  revert h
  unfold loneMark?
  split
  case h_10 =>
    split
    · rename_i hlone
      exact fun _ => isBlank_of_uniform (.mem (by decide)) (by decide) hlone
    · exact fun h => nomatch h
  all_goals exact fun _ => by decide

/-- A blank that separates no tokens starts none. -/
theorem measure_of_isBlank (hblank : isBlank c = true) (hinside : isAsciiBlank c = false)
    (cs : List Char) :
    Segment.measure c cs = (.malformed (.unrecognized c), 0) := by
  have hne : ∀ d, isBlank d = false → c ≠ d := by
    rintro d hd rfl
    rw [hblank] at hd
    cases hd
  have hword : isWordStart c = false := by
    rcases hc : isWordStart c with _ | _
    · rfl
    · rw [isBlank_of_isWordChar (isWordChar_of_isWordStart hc)] at hblank
      cases hblank
  have hdigit : c.isDigit = false := by
    rcases hc : c.isDigit with _ | _
    · rfl
    · rw [isBlank_of_isDecimal (by rw [isDecimal, hc, Bool.true_or])] at hblank
      cases hblank
  have hlone : loneMark? c = none := by
    rcases hc : loneMark? c with _ | kind
    · rfl
    · rw [isBlank_of_loneMark? hc] at hblank
      cases hblank
  simp [Segment.measure, hinside, hne '/' rfl, hne '\x60' rfl, hword, hne '\\' rfl, hne '$' rfl,
    hdigit, hne '\'' rfl,
    hne '"' rfl, measureMark, hlone, hne '=' rfl, isComparison, hne '!' rfl,
    hne '<' rfl, hne '>' rfl]

/-! ## Texts that are one token -/

/-- A text that a run takes whole. -/
theorem forall_of_run_eq_length {p : Char → Bool} (h : run p cs = cs.length) :
    ∀ c ∈ cs, p c = true := by
  have hrun : run p (cs ++ []) = cs.length := by rwa [List.append_nil]
  exact (run_append_eq_length_iff.1 hrun).1

theorem endsInBlank_cons_of_run {p : Char → Bool} (hp : ∀ {d}, p d = true → isBlank d = false)
    (hc : isBlank c = false) (h : run p cs = cs.length) : endsInBlank (c :: cs) = false :=
  endsInBlank_of_forall
    (List.forall_mem_cons.2 ⟨hc, fun d hd => hp (forall_of_run_eq_length h d hd)⟩)

/-- A string literal that is closed ends with its quote. -/
theorem exists_quote_of_stringEnd (h : stringEnd cs = (cs.length, true)) :
    ∃ front, cs = front ++ ['"'] := by
  fun_induction stringEnd cs with
  | case1 => cases h
  | case2 d cs n closed hrest ih =>
    obtain ⟨hn, rfl⟩ := Prod.mk.inj h
    obtain ⟨front, rfl⟩ := ih (by rw [hrest]; exact Prod.ext (by simpa using hn) rfl)
    exact ⟨'\\' :: d :: front, rfl⟩
  | case3 cs => cases h
  | case4 cs hline =>
    obtain rfl := List.eq_nil_of_length_eq_zero (Nat.succ.inj (congrArg Prod.fst h)).symm
    exact ⟨[], rfl⟩
  | case5 c cs hescape hline hquote n closed hrest ih =>
    obtain ⟨hn, rfl⟩ := Prod.mk.inj h
    obtain ⟨front, rfl⟩ := ih (by rw [hrest]; exact Prod.ext (by simpa using hn) rfl)
    exact ⟨c :: front, rfl⟩

/-! ### Numbers -/

/-- What a base and its digits end in: a character that is no blank, or the gap behind the base. -/
theorem exists_base_of_digitsLength (h : digitsLength cs = cs.length)
    (hblank : endsInBlank cs = true) :
    ∃ radix gap, cs = radix :: gap ∧ isRadix radix = true ∧
      (∀ d ∈ gap, isGap d = true) ∧ gap ≠ [] := by
  rcases cs with _ | ⟨radix, rest⟩
  · cases hblank
  · rw [digitsLength] at h
    split at h
    · rename_i hradix
      obtain ⟨gap, digits, rfl, hgap, hdigits⟩ := exists_run isGap rest
      rw [run_append_of_all hgap hdigits, List.drop_left, List.length_cons, List.length_append] at h
      have hrun : run isBasedDigit digits = digits.length := by omega
      rcases digits with _ | ⟨d, digits⟩
      · rw [List.append_nil] at hblank ⊢
        refine ⟨radix, gap, rfl, hradix, hgap, ?_⟩
        rintro rfl
        have hlast : isBlank radix = true := hblank
        rw [isBlank_of_isRadix hradix] at hlast
        cases hlast
      · rw [← List.cons_append, endsInBlank_append (List.cons_ne_nil d digits),
          endsInBlank_of_forall fun e he =>
            isBlank_of_isBasedDigit (forall_of_run_eq_length hrun e he)] at hblank
        cases hblank
    · cases h

/-- A text that is what follows the tick of a based number, with a blank at its end. -/
theorem exists_base_of_basedLength (h : basedLength cs = cs.length)
    (hblank : endsInBlank cs = true) :
    ∃ front radix gap, cs = front ++ radix :: gap ∧ isRadix radix = true ∧
      (∀ d ∈ gap, isGap d = true) ∧
      gap ≠ [] := by
  rw [basedLength_eq] at h
  by_cases hsign : startsWith isSignMark cs = true
  · rcases cs with _ | ⟨sign, rest⟩
    · cases hblank
    · rw [if_pos hsign, List.drop_succ_cons, List.drop_zero, List.length_cons] at h
      have hrest : digitsLength rest = rest.length := by omega
      rcases rest with _ | ⟨d, rest⟩
      · have hlast : isBlank sign = true := hblank
        rw [isBlank_of_uniform ByteLexer.uniform_isSignMark (by decide) hsign] at hlast
        cases hlast
      · have hrestBlank : endsInBlank (d :: rest) = true := by
          rwa [← List.singleton_append, endsInBlank_append (List.cons_ne_nil d rest)] at hblank
        obtain ⟨radix, gap, hcut, hbase⟩ := exists_base_of_digitsLength hrest hrestBlank
        exact ⟨[sign], radix, gap, by rw [hcut]; rfl, hbase⟩
  · rw [if_neg hsign, List.drop_zero, Nat.zero_add] at h
    obtain ⟨radix, gap, hcut, hbase⟩ := exists_base_of_digitsLength h hblank
    exact ⟨[], radix, gap, hcut, hbase⟩

/-- An optional mark at the start of a text. -/
theorem isBlank_of_mem_take_mark {p : Char → Bool} (hp : ∀ {d}, p d = true → isBlank d = false) :
    ∀ c ∈ cs.take (if startsWith p cs then 1 else 0), isBlank c = false := by
  rcases cs with _ | ⟨d, cs⟩
  · simp
  · split
    · rename_i hd
      simpa using hp hd
    · simp

theorem isBlank_of_mem_take_fractionLength :
    ∀ c ∈ cs.take (fractionLength cs), isBlank c = false := by
  fun_cases fractionLength cs with
  | case1 rest hdigit =>
    rw [Nat.add_comm, List.take_succ_cons, take_run]
    exact List.forall_mem_cons.2
      ⟨by decide, fun d hd => isBlank_of_isDecimal (List.mem_takeWhile_imp hd)⟩
  | case2 rest hdigit => simp
  | case3 => simp

theorem isBlank_of_mem_take_exponentLength :
    ∀ c ∈ cs.take (exponentLength cs), isBlank c = false := by
  fun_cases exponentLength cs with
  | case1 mark rest hmark sign =>
    have hsign : ∀ c ∈ rest.take sign, isBlank c = false :=
      isBlank_of_mem_take_mark fun h => isBlank_of_uniform ByteLexer.uniform_isSign (by decide) h
    have hmark' : isBlank mark = false :=
      isBlank_of_uniform ByteLexer.uniform_isExponentMark (by decide) hmark
    rw [Nat.add_assoc, Nat.add_comm, List.take_succ_cons, List.take_add, take_run]
    refine List.forall_mem_cons.2 ⟨hmark', List.forall_mem_append.2 ⟨hsign, fun d hd => ?_⟩⟩
    exact isBlank_of_isDecimal (List.mem_takeWhile_imp hd)
  | case2 mark rest hmark => simp
  | case3 => simp

/-- A number that ends in a blank ends in its base and a gap. -/
theorem exists_base_of_numberLength (h : numberLength cs = cs.length)
    (hblank : endsInBlank cs = true) :
    ∃ front radix gap, cs = front ++ radix :: gap ∧ isRadix radix = true ∧
      (∀ d ∈ gap, isGap d = true) ∧
      gap ≠ [] := by
  obtain ⟨digits, rest, rfl, hdigits, hrest⟩ := exists_run isDecimal cs
  rw [numberLength_eq, run_append_of_all hdigits hrest, List.drop_left, List.length_append,
    Nat.add_left_cancel_iff] at h
  have hne : rest ≠ [] := by
    rintro rfl
    rw [List.append_nil, endsInBlank_of_forall fun d hd =>
      isBlank_of_isDecimal (hdigits d hd)] at hblank
    cases hblank
  rw [endsInBlank_append hne] at hblank
  rcases hbase : startsBase rest with _ | _
  · -- a fraction and an exponent hold no blank
    rw [numberTail_of_not_startsBase hbase] at h
    have hsolid : endsInBlank rest = false := by
      refine endsInBlank_of_forall fun d hd => ?_
      rw [← List.take_length (l := rest), ← h, List.take_add] at hd
      rcases List.mem_append.1 hd with hd | hd
      · exact isBlank_of_mem_take_fractionLength d hd
      · exact isBlank_of_mem_take_exponentLength d hd
    rw [hsolid] at hblank
    cases hblank
  · obtain ⟨base, value, hdrop, -⟩ := startsBase_iff.1 hbase
    rw [numberTail_of_startsBase hbase, hdrop, List.drop_succ_cons, List.drop_zero] at h
    have hcut : rest = rest.take (run isGap rest) ++ '\'' :: base :: value := by
      rw [← hdrop, List.take_append_drop]
    have hlength := congrArg List.length hcut
    rw [List.length_append, List.length_take, Nat.min_eq_left (run_le_length _ _),
      List.length_cons] at hlength
    have hvalue : endsInBlank (base :: value) = true := by
      rwa [hcut, List.append_cons, endsInBlank_append (List.cons_ne_nil base value)] at hblank
    obtain ⟨front, radix, gap, hvalue, hform⟩ := exists_base_of_basedLength (by omega) hvalue
    refine ⟨digits ++ (rest.take (run isGap rest) ++ '\'' :: front), radix, gap, ?_, hform⟩
    rw [List.append_assoc, List.append_assoc, List.cons_append, ← hvalue, ← hcut]

/-! ## Segments that make a token -/

namespace Segment

variable {s : Segment} {F : List Char} {kind : TokenKind}

/-- A token starts with a blank only if it is one. -/
theorem Fits.isStray_of_startsInBlank (h : s.Fits F) (hkind : s.kind.tokenKind? = some kind)
    (hblank : startsInBlank s.text = true) :
    kind = .error ∧ ∃ c, s.text = [c] ∧ Text.isAsciiBlank c = false := by
  obtain ⟨c, cs, htext, hmeasure⟩ := h
  rw [htext] at hblank ⊢
  have hc : isBlank c = true := hblank
  by_cases hinside : Text.isAsciiBlank c = true
  · rw [Segment.measure, if_pos hinside] at hmeasure
    rw [← (Prod.mk.inj hmeasure).1] at hkind
    cases hkind
  · rw [measure_of_isBlank hc (by simpa using hinside)] at hmeasure
    obtain ⟨hfault, hlength⟩ := Prod.mk.inj hmeasure
    rw [← hfault] at hkind
    obtain rfl := List.eq_nil_of_length_eq_zero hlength.symm
    exact ⟨(Option.some.inj hkind).symm, c, rfl, by simpa using hinside⟩

/-- A segment of one token is that token alone. -/
theorem Fits.measure_eq (h : s.Fits F) :
    ∃ c cs, s.text = c :: cs ∧ Segment.measure c cs = (s.kind, cs.length) := by
  obtain ⟨c, cs, htext, hmeasure⟩ := (show Fit F [s] from ⟨h, trivial⟩).nil.1
  rw [List.flatMap_nil, List.append_nil, List.append_nil] at hmeasure
  exact ⟨c, cs, htext, hmeasure⟩

theorem endsInBlank_of_measureMark (hinside : isAsciiBlank c = false)
    (h : measureMark c cs = (s.kind, cs.length)) (hkind : s.kind.tokenKind? = some kind)
    (hblank : endsInBlank (c :: cs) = true) : kind.EndsInBlank (c :: cs) := by
  rw [measureMark] at h
  have hequals : ∀ {d}, (d == '=') = true → isBlank d = false := by
    rintro d hd
    obtain rfl := beq_iff_eq.1 hd
    decide
  split at h
  · rename_i hlone
    obtain rfl := List.eq_nil_of_length_eq_zero (congrArg Prod.snd h).symm
    have hc : isBlank c = true := hblank
    rw [isBlank_of_loneMark? hlone] at hc
    cases hc
  · split at h
    · rename_i hc
      have hrun : run (· == '=') cs = cs.length := congrArg Prod.snd h
      rw [endsInBlank_cons_of_run hequals (by rw [hc]; decide) hrun] at hblank
      cases hblank
    · split at h
      · rename_i hc
        have hrun : run (· == '=') cs = cs.length := congrArg Prod.snd h
        have hmark : isBlank c = false := by
          simp only [isComparison, Bool.or_eq_true, beq_iff_eq] at hc
          rcases hc with (rfl | rfl) | rfl <;> decide
        rw [endsInBlank_cons_of_run hequals hmark hrun] at hblank
        cases hblank
      · obtain rfl := List.eq_nil_of_length_eq_zero (congrArg Prod.snd h).symm
        rw [← (Prod.mk.inj h).1] at hkind
        obtain rfl := Option.some.inj hkind
        exact .stray hblank hinside

theorem endsInBlank_of_measureEscaped (h : measureEscaped cs = (s.kind, cs.length))
    (hkind : s.kind.tokenKind? = some kind) (hblank : Text.endsInBlank ('\\' :: cs) = true) :
    kind.EndsInBlank ('\\' :: cs) := by
  rcases List.eq_nil_or_concat' cs with rfl | ⟨name, d, rfl⟩
  · cases hblank
  · rw [measureEscaped] at h
    split at h
    · simp at h
    · rw [← (Prod.mk.inj h).1] at hkind
      obtain rfl := Option.some.inj hkind
      have hinside := forall_of_run_eq_length (Prod.mk.inj h).2 d (List.mem_concat_self ..)
      rw [← List.cons_append, endsInBlank_append (List.cons_ne_nil d [])] at hblank
      exact .escapedIdentifier hblank (by simpa using hinside)

/-- A number, whose text after its first character ends in a base and a gap if it ends in a
blank. -/
theorem endsInBlank_of_number (hc : isBlank c = false) (hblank : Text.endsInBlank (c :: cs) = true)
    (hbase : Text.endsInBlank cs = true → ∃ front radix gap, cs = front ++ radix :: gap ∧
      isRadix radix = true ∧
      (∀ d ∈ gap, isGap d = true) ∧ gap ≠ []) : TokenKind.number.EndsInBlank (c :: cs) := by
  rcases cs with _ | ⟨d, cs⟩
  · have hlast : isBlank c = true := hblank
    rw [hc] at hlast
    cases hlast
  · rw [← List.singleton_append, endsInBlank_append (List.cons_ne_nil d cs)] at hblank
    obtain ⟨front, radix, gap, hcut, hradix, hgap, hne⟩ := hbase hblank
    rw [hcut, ← List.cons_append]
    exact .number hradix hgap hne

theorem endsInBlank_of_measureString (h : measureString cs = (s.kind, cs.length))
    (hkind : s.kind.tokenKind? = some kind) (hblank : Text.endsInBlank ('"' :: cs) = true) :
    kind.EndsInBlank ('"' :: cs) := by
  rcases hend : stringEnd cs with ⟨n, _ | _⟩
  · rw [measureString, hend] at h
    rw [← (Prod.mk.inj h).1] at hkind
    obtain rfl := Option.some.inj hkind
    rcases cs with _ | ⟨d, cs⟩
    · cases hblank
    · rw [← List.singleton_append, endsInBlank_append (List.cons_ne_nil d cs)] at hblank
      exact .openString hblank
  · have hlength : n = cs.length := by
      rw [measureString, hend] at h
      exact (Prod.mk.inj h).2
    rw [hlength] at hend
    obtain ⟨front, rfl⟩ := exists_quote_of_stringEnd hend
    rw [← List.cons_append, endsInBlank_append (List.cons_ne_nil '"' [])] at hblank
    cases hblank

/-- **Few tokens end in a blank.** -/
theorem Fits.endsInBlank (h : s.Fits F) (hkind : s.kind.tokenKind? = some kind)
    (hblank : Text.endsInBlank s.text = true) : kind.EndsInBlank s.text := by
  obtain ⟨c, cs, htext, hmeasure⟩ := h.measure_eq
  rw [htext] at hblank ⊢
  -- silent segments make no token, and words end in a character of a word
  have hword : isBlank c = false → run isWordChar cs = cs.length → kind.EndsInBlank (c :: cs) := by
    intro hc hrun
    rw [endsInBlank_cons_of_run isBlank_of_isWordChar hc hrun] at hblank
    cases hblank
  revert hmeasure
  fun_cases Segment.measure c cs with
  | case1 | case2 | case3 | case4 =>
    intro hmeasure
    rw [← (Prod.mk.inj hmeasure).1] at hkind
    cases hkind
  | case5 _ _ _ hbacktick =>
    intro hmeasure
    rw [measureBacktick] at hmeasure
    split at hmeasure
    · rw [← (Prod.mk.inj hmeasure).1] at hkind
      cases hkind
    · have hc : isBlank c = false := by
        rw [hbacktick]
        decide
      exact hword hc (congrArg Prod.snd hmeasure)
  | case6 hinside _ _ _ hstart =>
    intro hmeasure
    exact hword (isBlank_of_isWordChar (isWordChar_of_isWordStart hstart))
      (congrArg Prod.snd hmeasure)
  | case7 _ _ _ _ _ hescaped =>
    intro hmeasure
    subst hescaped
    exact endsInBlank_of_measureEscaped hmeasure hkind hblank
  | case8 _ _ _ _ _ _ hdollar =>
    intro hmeasure
    have hc : isBlank c = false := by
      rw [hdollar]
      decide
    exact hword hc (congrArg Prod.snd hmeasure)
  | case9 _ _ _ _ _ _ _ hdigit =>
    intro hmeasure
    rw [← (Prod.mk.inj hmeasure).1] at hkind
    obtain rfl := Option.some.inj hkind
    have hc : isBlank c = false := isBlank_of_isDecimal (by rw [isDecimal, hdigit, Bool.true_or])
    exact endsInBlank_of_number hc hblank (exists_base_of_numberLength (Prod.mk.inj hmeasure).2)
  | case10 _ _ _ _ _ _ _ _ htick =>
    intro hmeasure
    rw [← (Prod.mk.inj hmeasure).1] at hkind
    obtain rfl := Option.some.inj hkind
    have hc : isBlank c = false := by
      rw [htick.1]
      decide
    exact endsInBlank_of_number hc hblank (exists_base_of_basedLength (Prod.mk.inj hmeasure).2)
  | case11 _ _ _ _ _ _ _ _ _ hquote =>
    intro hmeasure
    subst hquote
    exact endsInBlank_of_measureString hmeasure hkind hblank
  | case12 hinside =>
    intro hmeasure
    exact endsInBlank_of_measureMark (by simpa using hinside) hmeasure hkind hblank

end Segment

end VerilogScaffold
