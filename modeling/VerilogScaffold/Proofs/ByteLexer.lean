import VerilogScaffold.Proofs.ByteReader

/-!
# The lexer does not fail

Every reader of the lexer by byte stops where the cut into segments ends what it reads, and none of
its steps fails: `Lexing.ofSource?_eq`. Extraction can therefore be reasoned about by segments.

The one place where the lexer steps into a character is a string literal, where a backslash takes
the next byte with it: the rest of that character is stepped over like any other byte
(`stringFrom_skip`). It also looks back in one place: whether a line directive goes on is decided by
the text before the newline, which the cut has to remember (`continues_eq`).
-/

namespace VerilogScaffold

namespace ByteLexer

open Text Segment

variable {s : ByteLexer} {before cs : List Char}

/-! ## Comments -/

theorem commentFrom_skip {i : Nat} {xs ys : List Char} (h : s.Ahead i (xs ++ ys))
    (hxs : ∀ x ∈ xs, 128 ≤ x.toNat) : s.commentFrom i = s.commentFrom (i + xs.length) := by
  induction xs generalizing i with
  | nil => rfl
  | cons x xs ih =>
    have hx : x ≠ '*' := by
      rintro rfl
      exact absurd (hxs '*' (List.mem_cons_self ..)) (by decide)
    have hrest := ih (i := i + 1) h.tail fun y hy => hxs y (List.mem_cons_of_mem _ hy)
    rw [commentFrom, if_pos h.lt, h.char, if_neg fun hmark => hx hmark.1, hrest, List.length_cons]
    congr 1
    omega

theorem commentFrom_eq (h : s.At before cs) :
    s.commentFrom (byteLength before) =
      match commentEnd? cs with
      | some n => (true, byteLength (before ++ cs.take n))
      | none => (false, byteLength (before ++ cs)) := by
  fun_induction commentEnd? cs generalizing before with
  | case1 cs =>
    have hslash := h.next.char (by decide)
    rw [byteLength_concat_of_lt _ (by decide)] at hslash
    rw [commentFrom, if_pos h.lt_size, if_pos ⟨h.char (by decide), hslash⟩]
    simp [byteLength_append, utf8Size_of_lt]
  | case2 c cs hmark ih =>
    have hstep : s.commentFrom (byteLength before) =
        s.commentFrom (byteLength (before ++ [c])) := by
      by_cases hc : c.toNat < 128
      · have hslash := h.next.char_eq_iff (d := '/') (by decide) (by decide)
        rw [byteLength_concat_of_lt _ hc] at hslash
        rw [commentFrom, if_pos h.lt_size, byteLength_concat_of_lt _ hc, h.char hc, if_neg]
        rintro ⟨hstar, hchar⟩
        have hstarts := hslash.1 hchar
        rcases cs with _ | ⟨d, cs⟩
        · cases hstarts
        · exact hmark cs hstar (by rw [eq_of_beq (hstarts : (d == '/') = true)])
      · rw [commentFrom_skip h.ahead_cons fun x hx => le_of_mem_byteChars (Nat.not_lt.1 hc) hx,
          At.index_next]
    rw [hstep, ih h.next]
    rcases commentEnd? cs with _ | n
    · simp
    · simp
  | case3 => rw [commentFrom, if_neg h.not_lt_size, List.append_nil]

/-- A block comment from its opening mark on. -/
theorem blockFrom_eq {c : Char} (h : s.At before (c :: cs))
    (hopen : c = '/' ∧ startsWith (· == '*') cs = true) :
    s.commentFrom (byteLength before + 2) =
      match commentEnd? (cs.drop 1) with
      | some n => (true, byteLength (before ++ c :: cs.take (n + 1)))
      | none => (false, byteLength (before ++ c :: cs)) := by
  obtain ⟨rfl, hstar⟩ := hopen
  rcases cs with _ | ⟨d, ds⟩
  · cases hstar
  · obtain rfl : d = '*' := eq_of_beq hstar
    have hindex : byteLength (before ++ ['/'] ++ ['*']) = byteLength before + 2 := by
      rw [byteLength_concat_of_lt _ (by decide), byteLength_concat_of_lt _ (by decide)]
    rw [← hindex, commentFrom_eq h.next.next, List.drop_one, List.tail_cons]
    simp only [List.append_assoc, List.cons_append, List.nil_append, List.take_succ_cons]

/-! ## String literals -/

/-- Inside a character beyond ASCII a string literal goes on. -/
theorem stringFrom_skip {i : Nat} {xs ys : List Char} (h : s.Ahead i (xs ++ ys))
    (hxs : ∀ x ∈ xs, 128 ≤ x.toNat) : s.stringFrom i = s.stringFrom (i + xs.length) := by
  induction xs generalizing i with
  | nil => rfl
  | cons x xs ih =>
    have hx : ∀ d : Char, d.toNat < 128 → x ≠ d := by
      rintro d hd rfl
      have := hxs x (List.mem_cons_self ..)
      omega
    have hrest := ih (i := i + 1) h.tail fun y hy => hxs y (List.mem_cons_of_mem _ hy)
    rw [stringFrom, if_pos h.lt, h.char, if_neg (hx _ (by decide)), if_neg (hx _ (by decide)),
      if_neg (hx _ (by decide)), hrest, List.length_cons]
    congr 1
    omega

theorem stringFrom_eq (h : s.At before cs) :
    s.stringFrom (byteLength before) =
      ((stringEnd cs).2, byteLength (before ++ cs.take (stringEnd cs).1)) := by
  fun_induction stringEnd cs generalizing before with
  | case1 =>
    rw [stringFrom, if_neg h.not_lt_size, List.take_nil, List.append_nil]
  | case2 d cs n closed hrest ih =>
    obtain ⟨x, xs, hbytes, hxs⟩ := exists_byteChars_eq_cons d
    have hindex := byteLength_concat_of_lt before (c := '\\') (by decide)
    have hahead := h.next.ahead_cons
    rw [hbytes, hindex] at hahead
    -- the next byte goes with the backslash, and the other bytes of its character are stepped over
    have hnext : byteLength before + 2 + xs.length = byteLength (before ++ ['\\'] ++ [d]) := by
      rw [← At.index_next, hbytes, hindex, List.length_cons]
      omega
    have hmin : min (byteLength before + 2) s.bytes.size = byteLength before + 2 :=
      Nat.min_eq_left hahead.lt
    rw [stringFrom, if_pos h.lt_size, h.char (by decide), if_neg (by decide), if_pos rfl, hmin,
      stringFrom_skip hahead.tail fun y hy => (hxs y hy).1, hnext, ih h.next.next, hrest]
    simp
  | case3 cs hescape =>
    rw [stringFrom, if_pos h.lt_size, h.char (by decide), if_pos rfl, List.take_zero,
      List.append_nil]
  | case4 cs hescape hnewline =>
    rw [stringFrom, if_pos h.lt_size, h.char (by decide), if_neg (by decide), if_neg (by decide),
      if_pos rfl]
    exact Prod.ext rfl (byteLength_concat_of_lt _ (by decide)).symm
  | case5 c cs hescape hnewline hquote n closed hrest ih =>
    have hstep : s.stringFrom (byteLength before) = s.stringFrom (byteLength (before ++ [c])) := by
      by_cases hc : c.toNat < 128
      · rw [byteLength_concat_of_lt _ hc]
        by_cases hbackslash : c = '\\'
        · -- a backslash at the very end takes nothing with it
          rcases cs with _ | ⟨d, cs⟩
          · have hsize := h.next.ahead.size_eq
            rw [byteLength_concat_of_lt _ hc] at hsize
            have hmin : min (byteLength before + 2) s.bytes.size = byteLength before + 1 := by
              rw [hsize]
              exact Nat.min_eq_right (Nat.le_succ _)
            rw [stringFrom, if_pos h.lt_size, h.char hc, if_neg hnewline, if_pos hbackslash, hmin]
          · exact (hescape d cs hbackslash rfl).elim
        · rw [stringFrom, if_pos h.lt_size, h.char hc, if_neg hnewline, if_neg hbackslash,
            if_neg hquote]
      · rw [stringFrom_skip h.ahead_cons fun x hx => le_of_mem_byteChars (Nat.not_lt.1 hc) hx,
          At.index_next]
    rw [hstep, ih h.next, hrest]
    simp

/-! ## Numbers -/

theorem basedFrom_eq (h : s.At before cs) :
    s.basedFrom (byteLength before) = byteLength (before ++ cs.take (basedLength cs)) := by
  have hsign := h.optional_eq uniform_isSignMark (by decide)
  have hrest := h.drop (if startsWith isSignMark cs then 1 else 0)
  simp only [basedFrom, hsign, hrest.test_eq uniform_isRadix (by decide)]
  rw [basedLength]
  generalize (if startsWith isSignMark cs then 1 else 0) = sign at hrest ⊢
  rcases hdrop : cs.drop sign with _ | ⟨c, rest⟩
  · rfl
  · rw [hdrop] at hrest
    by_cases hc : isRadix c = true
    · have hstarts : startsWith isRadix (c :: rest) = true := hc
      have hgap := hrest.next.eatWhile_eq uniform_isGap
      have hdigits := (hrest.next.drop (run isGap rest)).eatWhile_eq uniform_isBasedDigit
      rw [byteLength_concat_of_lt _ (uniform_isRadix.lt_of_eq_true hc)] at hgap
      have htake : cs.take
          (sign + 1 + run isGap rest + run isBasedDigit (rest.drop (run isGap rest))) =
          cs.take sign ++ c :: (rest.take (run isGap rest) ++
            (rest.drop (run isGap rest)).take (run isBasedDigit (rest.drop (run isGap rest)))) := by
        rw [Nat.add_assoc, Nat.add_assoc, List.take_add, hdrop, Nat.add_comm 1, List.take_succ_cons,
          List.take_add]
      simp only [hstarts, if_true, hgap, hdigits, hc, htake]
      simp only [List.append_assoc, List.cons_append, List.nil_append]
    · simp [startsWith, hc]

theorem fractionFrom_eq (h : s.At before cs) :
    s.fractionFrom (byteLength before) = byteLength (before ++ cs.take (fractionLength cs)) := by
  have hpoint := h.char_eq_iff (d := '.') (by decide) (by decide)
  rw [fractionFrom]
  rcases cs with _ | ⟨c, cs⟩
  · rw [if_neg fun hboth => absurd (hpoint.1 hboth.1) (by simp [startsWith]), List.take_nil,
      List.append_nil]
  · by_cases hc : c = '.'
    · subst hc
      have hdigit := h.next.test_eq Uniform.isDigit (by decide)
      have hdigits := h.eatWhile_next uniform_isDecimal (by decide)
      rw [byteLength_concat_of_lt _ (by decide)] at hdigit
      rw [fractionLength]
      by_cases hstarts : startsWith Char.isDigit cs = true
      · rw [if_pos ⟨hpoint.2 rfl, hdigit.trans hstarts⟩, if_pos hstarts, hdigits, Nat.add_comm 1,
          List.take_succ_cons]
      · rw [if_neg fun hboth => hstarts (hdigit.symm.trans hboth.2), if_neg hstarts, List.take_zero,
          List.append_nil]
    · have hlength : fractionLength (c :: cs) = 0 := by simp [fractionLength, hc]
      rw [if_neg fun hboth => hc (eq_of_beq (hpoint.1 hboth.1)), hlength, List.take_zero,
        List.append_nil]

theorem exponentFrom_eq (h : s.At before cs) :
    s.exponentFrom (byteLength before) = byteLength (before ++ cs.take (exponentLength cs)) := by
  have hmark := h.test_eq uniform_isExponentMark (by decide)
  simp only [exponentFrom, hmark]
  rcases cs with _ | ⟨c, cs⟩
  · rw [if_neg (by simp [startsWith]), List.take_nil, List.append_nil]
  · by_cases hc : (c == 'e' || c == 'E') = true
    · have hstarts : startsWith (fun c => c == 'e' || c == 'E') (c :: cs) = true := hc
      have hsign := h.next.optional_eq uniform_isSign (by decide)
      have hdigits :=
        (h.next.drop (if startsWith (fun d => d == '+' || d == '-') cs then 1 else 0)).eatWhile_eq
        uniform_isDecimal
      rw [byteLength_concat_of_lt _ (uniform_isExponentMark.lt_of_eq_true hc)] at hsign
      rw [if_pos hstarts, exponentLength, if_pos hc, hsign, hdigits, Nat.add_assoc, Nat.add_comm 1,
        List.take_succ_cons, List.take_add]
      simp only [List.append_assoc, List.cons_append, List.nil_append]
    · have hlength : exponentLength (c :: cs) = 0 := by rw [exponentLength, if_neg hc]
      have hstarts : ¬ startsWith (fun c => c == 'e' || c == 'E') (c :: cs) = true := hc
      rw [if_neg hstarts, hlength, List.take_zero, List.append_nil]

/-- A number without a base goes on as a fraction and an exponent. -/
theorem unbasedFrom_eq (h : s.At before cs) :
    s.exponentFrom (s.fractionFrom (byteLength before)) =
      byteLength (before ++
        cs.take (fractionLength cs + exponentLength (cs.drop (fractionLength cs)))) := by
  rw [fractionFrom_eq h, exponentFrom_eq (h.drop _), List.take_add, List.append_assoc]

theorem numberLength_cons {c : Char} (hc : c.isDigit = true) (cs : List Char) :
    numberLength (c :: cs) = numberLength cs + 1 := by
  have hrun : run isDecimal (c :: cs) = run isDecimal cs + 1 := by
    rw [run, List.takeWhile_cons_of_pos (by rw [isDecimal, hc, Bool.true_or]),
      List.length_cons, run]
  rw [numberLength_eq, numberLength_eq, hrun, List.drop_succ_cons]
  omega

theorem numberFrom_eq (h : s.At before cs) :
    s.numberFrom (byteLength before) = byteLength (before ++ cs.take (numberLength cs)) := by
  have hdigits := h.eatWhile_eq uniform_isDecimal
  have hrest := h.drop (run isDecimal cs)
  rw [numberLength_eq, List.take_add, ← List.append_assoc]
  simp only [numberFrom, hdigits]
  generalize before ++ cs.take (run isDecimal cs) = before at hrest ⊢
  generalize cs.drop (run isDecimal cs) = rest at hrest ⊢
  have hgap := hrest.eatWhile_eq uniform_isGap
  have htail := hrest.drop (run isGap rest)
  have htick := htail.char_eq_iff (d := '\'') (by decide) (by decide)
  rw [hgap, numberTail]
  rcases hdrop : rest.drop (run isGap rest) with _ | ⟨tick, value⟩
  · rw [hdrop] at htick
    rw [if_neg fun hboth => absurd (htick.1 hboth.1) (by simp [startsWith])]
    exact unbasedFrom_eq hrest
  · rw [hdrop] at htick htail
    by_cases hc : tick = '\''
    · subst hc
      have hbase := htail.next.test_eq uniform_isBaseStart (by decide)
      have hbased := basedFrom_eq htail.next
      rw [byteLength_concat_of_lt _ (by decide)] at hbase hbased
      rcases value with _ | ⟨base, value⟩
      · rw [if_neg fun hboth => absurd (hbase.symm.trans hboth.2) (by simp [startsWith])]
        exact unbasedFrom_eq hrest
      · by_cases hstarts : isBaseStart base = true
        · rw [if_pos ⟨htick.2 rfl, hbase.trans hstarts⟩, hbased, List.append_assoc,
            List.append_assoc]
          simp only [hstarts, if_true]
          rw [Nat.add_assoc, List.take_add, hdrop, Nat.add_comm 1, List.take_succ_cons,
            List.singleton_append]
        · rw [if_neg fun hboth => hstarts (hbase.symm.trans hboth.2)]
          simp only [hstarts]
          exact unbasedFrom_eq hrest
    · rw [if_neg fun hboth => hc (eq_of_beq (htick.1 hboth.1))]
      rcases value with _ | ⟨base, value⟩ <;> simpa [hc] using unbasedFrom_eq hrest

/-! ## Directives -/

theorem continuedAfter_of_isWordChar {word : List Char} (h : ∀ c ∈ word, isWordChar c = true) :
    continuedAfter false word = false := by
  induction word with
  | nil => rfl
  | cons c word ih =>
    have hc : (c == '\\') = false := by
      rw [beq_eq_false_iff_ne]
      rintro rfl
      exact absurd (h '\\' (List.mem_cons_self ..)) (by decide)
    rw [continuedAfter, hc, ite_self]
    exact ih fun d hd => h d (List.mem_cons_of_mem _ hd)

theorem lineEnd_append {line : List Char} (h : ∀ c ∈ line, (c != '\n') = true) (continued : Bool)
    (rest : List Char) :
    lineEnd continued (line ++ rest) = line.length +
      lineEnd (continuedAfter continued line) rest := by
  induction line generalizing continued with
  | nil => rw [List.nil_append, List.length_nil, Nat.zero_add, continuedAfter]
  | cons c line ih =>
    have hc : c ≠ '\n' := bne_iff_ne.1 (h c (List.mem_cons_self ..))
    have ih := ih fun d hd => h d (List.mem_cons_of_mem _ hd)
    rw [List.cons_append, lineEnd, if_neg hc, continuedAfter, List.length_cons]
    split
    · rw [ih]
      omega
    · rw [ih]
      omega

/-- The last byte of a character is tested like the character. -/
theorem At.test_last {c : Char} {p : Char → Bool} {v : Bool} (h : s.At before (c :: cs))
    (hp : Uniform p v) : p (s.char (byteLength (before ++ [c]) - 1)) = p c := by
  have hsize := c.utf8Size_pos
  have hlength : (byteChars [c]).length = c.utf8Size := by
    rw [length_byteChars, byteLength_cons, byteLength_nil, Nat.add_zero]
  have hindex : byteLength (before ++ [c]) - 1 = byteLength before + (c.utf8Size - 1) := by
    rw [← At.index_next, hlength]
    omega
  have hmem : s.char (byteLength (before ++ [c]) - 1) ∈ byteChars [c] := by
    rw [hindex, h.ahead_cons.char_add, List.getD_eq_getElem?_getD,
      List.getElem?_append_left (by omega), List.getElem?_eq_getElem (by omega)]
    exact List.getElem_mem _
  by_cases hc : c.toNat < 128
  · rw [byteChars_of_lt hc] at hmem
    rw [List.mem_singleton.1 hmem]
  · have hc := Nat.not_lt.1 hc
    rw [hp _ (le_of_mem_byteChars hc hmem), hp c hc]

theorem continues_eq (h : s.At before cs) :
    s.continues (byteLength before) = endsInBackslash before := by
  -- on the text before, from its end
  induction hrev : before.reverse generalizing before cs with
  | nil =>
    rw [List.reverse_eq_nil_iff] at hrev
    subst hrev
    rw [byteLength_nil, continues, trimEnd, if_neg fun hboth => Nat.lt_irrefl 0 hboth.1]
    rfl
  | cons c rev ih =>
    obtain rfl : before = rev.reverse ++ [c] := by
      rw [← List.reverse_reverse before, hrev, List.reverse_cons]
    have hc : s.At rev.reverse (c :: cs) := by rwa [At, List.append_assoc] at h
    have hpositive : 0 < byteLength (rev.reverse ++ [c]) := by
      have := c.utf8Size_pos
      rw [byteLength_append, byteLength_cons]
      omega
    have hblank := hc.test_last uniform_isAsciiBlank
    rw [continues, trimEnd, endsInBackslash_concat]
    by_cases hc' : isAsciiBlank c = true
    · have hindex : byteLength (rev.reverse ++ [c]) - 1 = byteLength rev.reverse := by
        rw [byteLength_concat_of_lt _ (uniform_isAsciiBlank.lt_of_eq_true hc'), Nat.add_sub_cancel]
      rw [if_pos ⟨hpositive, hblank.trans hc'⟩, if_pos hc', hindex]
      exact ih hc (List.reverse_reverse rev)
    · have hbackslash := hc.test_last (p := (· == '\\')) (.beq (by decide))
      rw [if_neg fun hboth => hc' (hblank.symm.trans hboth.2), if_neg hc', hbackslash,
        decide_eq_true hpositive, Bool.true_and]

/-- A text is its first line and what follows, if anything does from a newline on. -/
theorem exists_line (cs : List Char) :
    ∃ line rest, cs = line ++ rest ∧ cs.takeWhile (· != '\n') = line ∧
      (∀ c ∈ line, (c != '\n') = true) ∧ ∀ c more, rest = c :: more → c = '\n' := by
  refine ⟨_, cs.dropWhile (· != '\n'), List.takeWhile_append_dropWhile.symm, rfl,
    List.all_eq_true.1 List.all_takeWhile, fun c more hrest => ?_⟩
  have hhead := List.head?_dropWhile_not (· != '\n') cs
  rw [hrest] at hhead
  simpa using hhead

theorem lineFrom?_eq (h : s.At before cs) :
    s.lineFrom? (byteLength before) =
      some (byteLength (before ++ cs.take (lineEnd (endsInBackslash before) cs))) := by
  -- on the length of the text, since a line may take any part of it
  induction hn : cs.length using Nat.strongRecOn generalizing before cs with
  | ind n ih =>
    have hrun := h.eatWhile_eq (p := (· != '\n')) (Uniform.beq (by decide)).not
    obtain ⟨line, rest, rfl, htake, hline, hhead⟩ := exists_line cs
    have hrest : s.At (before ++ line) rest := h.append
    rw [take_run, htake] at hrun
    rw [lineFrom?, hrun, if_pos hrest.le_size, continues_eq hrest, endsInBackslash_append_eq,
      lineEnd_append hline, List.take_append, List.take_of_length_le (Nat.le_add_right _ _),
      Nat.add_sub_cancel_left, ← List.append_assoc]
    rcases rest with _ | ⟨c, rest⟩
    · rw [if_neg fun hboth => hrest.not_lt_size hboth.2, List.take_nil, List.append_nil]
    · obtain rfl := hhead c rest rfl
      by_cases hcontinued : continuedAfter (endsInBackslash before) line = true
      · have hle : byteLength before ≤ byteLength (before ++ line) := by
          rw [byteLength_append]
          exact Nat.le_add_right _ _
        have hends : endsInBackslash (before ++ line ++ ['\n']) = true := by
          rw [endsInBackslash_concat, if_pos (by decide), endsInBackslash_append_eq, hcontinued]
        have hnext := ih rest.length (by simp [← hn]; omega) hrest.next rfl
        rw [byteLength_concat_of_lt _ (by decide), hends] at hnext
        rw [if_pos ⟨hcontinued, hrest.lt_size⟩,
          if_pos ⟨Nat.lt_of_le_of_lt hle hrest.lt_size, Nat.lt_succ_of_le hle⟩, hnext, lineEnd,
          if_pos rfl, hcontinued, if_pos rfl, List.take_succ_cons,
          List.append_assoc (before ++ line), List.singleton_append]
      · rw [if_neg fun hboth => hcontinued hboth.1, lineEnd, if_pos rfl, if_neg hcontinued,
          List.take_zero, List.append_nil]

theorem directiveFrom?_eq (h : s.At before cs) (hends : endsInBackslash before = false)
    (extent : DirectiveExtent) :
    s.directiveFrom? (byteLength before) extent =
      some (byteLength (before ++ cs.take (extent.measure cs))) := by
  cases extent with
  | word => rw [directiveFrom?, DirectiveExtent.measure, List.take_zero, List.append_nil]
  | wordAndName =>
    have hgap := h.eatWhile_eq uniform_isGap
    have hname := (h.drop (run isGap cs)).eatWhile_eq uniform_isWordChar
    rw [directiveFrom?, DirectiveExtent.measure, hgap, hname, List.take_add, List.append_assoc]
  | line => rw [directiveFrom?, DirectiveExtent.measure, lineFrom?_eq h, hends]

theorem backtickWord?_eq (h : s.At before ('\x60' :: cs)) :
    s.backtickWord? (byteLength before) = some (cs.take (run isWordChar cs)).utf8Encode := by
  have hindex := byteLength_concat_of_lt before (c := '\x60') (by decide)
  have hmin : min (byteLength before + 1) s.bytes.size = byteLength before + 1 :=
    Nat.min_eq_left (hindex ▸ h.next.le_size)
  have hword := h.next.eatWhile_eq uniform_isWordChar
  have hcut : s.At (before ++ ['\x60'])
      (cs.take (run isWordChar cs) ++ cs.drop (run isWordChar cs)) := by
    rw [List.take_append_drop]
    exact h.next
  simp only [backtickWord?, hmin]
  rw [← hindex, hword, hcut.slice?_eq]

theorem backtick?_eq (h : s.At before ('\x60' :: cs)) :
    s.backtick? (byteLength before) =
      some ((measureBacktick cs).1,
        byteLength (before ++ '\x60' :: cs.take (measureBacktick cs).2)) := by
  have hword := h.next.eatWhile_eq uniform_isWordChar
  have hrest := h.next.drop (run isWordChar cs)
  have hends : endsInBackslash (before ++ ['\x60'] ++ cs.take (run isWordChar cs)) = false := by
    rw [endsInBackslash_append_eq, endsInBackslash_concat, if_neg (by decide)]
    refine continuedAfter_of_isWordChar fun c hc => ?_
    rw [take_run] at hc
    exact List.all_eq_true.1 List.all_takeWhile c hc
  have hsize : byteLength before + 1 + (cs.take (run isWordChar cs)).utf8Encode.size =
      byteLength (before ++ ['\x60'] ++ cs.take (run isWordChar cs)) := by
    rw [size_utf8Encode, byteLength_append _ (cs.take _), byteLength_concat_of_lt _ (by decide)]
  rw [byteLength_concat_of_lt _ (by decide)] at hword
  simp only [backtick?, backtickWord?_eq h, Option.bind_eq_bind, Option.bind_some, hsize, hword,
    fromUTF8?_utf8Encode, directiveFrom?_eq hrest hends, measureBacktick]
  rcases directives.lookup (String.ofList (cs.take (run isWordChar cs))) with _ | extent
  · simp
  · simp [List.take_add]

/-! ## Lexemes -/

theorem word?_eq {c : Char} (h : s.At before (c :: cs)) (hc : isWordStart c = true) :
    s.word? (byteLength before) =
      some (.lexeme (wordKind (c :: cs.takeWhile isWordChar)),
        byteLength (before ++ c :: cs.take (run isWordChar cs))) := by
  have hchar : isWordChar c = true := by
    rw [isWordStart, Bool.or_eq_true] at hc
    rw [isWordChar, Char.isAlphanum, Bool.or_eq_true, Bool.or_eq_true, Bool.or_eq_true]
    rcases hc with hletter | hunderscore
    · exact .inl (.inl (.inl hletter))
    · exact .inl (.inr hunderscore)
  have hword := h.eatWhile_cons uniform_isWordChar hchar
  have hcut : s.At before (c :: cs.take (run isWordChar cs) ++ cs.drop (run isWordChar cs)) := by
    rwa [List.cons_append, List.take_append_drop]
  simp only [word?, hword, hcut.slice?_eq, Option.bind_eq_bind, Option.bind_some,
    fromUTF8?_utf8Encode, Option.getD_some, String.toList_ofList]
  rw [take_run]
  rfl

theorem escaped_eq (h : s.At before ('\\' :: cs)) :
    s.escaped (byteLength before) =
      ((measureEscaped cs).1, byteLength (before ++ '\\' :: cs.take (measureEscaped cs).2)) := by
  have hname := h.eatWhile_next uniform_isAsciiBlank.not (by decide)
  have hindex := byteLength_concat_of_lt before (c := '\\') (by decide)
  simp only [escaped, measureEscaped, hname]
  rcases hrun : run (fun c => !isAsciiBlank c) cs with _ | n
  · rw [List.take_zero, if_pos hindex]
    rfl
  · have hlt : byteLength before + 1 < byteLength (before ++ '\\' :: cs.take (n + 1)) := by
      rcases cs with _ | ⟨c, cs⟩
      · cases hrun
      · have := c.utf8Size_pos
        rw [← hindex, List.take_succ_cons, byteLength_append, byteLength_append, byteLength_cons,
          byteLength_cons, byteLength_cons, byteLength_nil]
        omega
    rw [if_neg (Nat.ne_of_gt hlt)]
    rfl

theorem isContinuation_eq {x : Char} (hx : x.toNat < 256) :
    isContinuation x = decide (128 ≤ x.toNat ∧ x.toNat < 192) := by
  have hall : ∀ n < 256, (n &&& 0xC0 == 0x80) = decide (128 ≤ n ∧ n < 192) := by decide +kernel
  exact hall _ hx

/-- The bytes that continue a character end where it does. -/
theorem At.eatWhile_isContinuation {c : Char} (h : s.At before (c :: cs)) :
    s.eatWhile isContinuation (byteLength before + 1) = byteLength (before ++ [c]) := by
  obtain ⟨x, xs, hbytes, hxs⟩ := exists_byteChars_eq_cons c
  have hahead := h.ahead_cons
  have hbounded : ∀ y ∈ byteChars [c] ++ byteChars cs, y.toNat < 256 := by
    rw [← byteChars_append]
    exact fun y hy => toNat_lt_of_mem_byteChars hy
  rw [hbytes, List.cons_append] at hahead hbounded
  have hcontinue : ∀ y ∈ xs, isContinuation y = true := by
    intro y hy
    rw [isContinuation_eq (hbounded y (by simp [hy]))]
    exact decide_eq_true (hxs y hy)
  have hstop : (byteChars cs).takeWhile isContinuation = [] := by
    rcases hcs : byteChars cs with _ | ⟨y, ys⟩
    · rfl
    · have hy : isContinuation y = false := by
        rw [isContinuation_eq (hbounded y (by simp [hcs]))]
        exact decide_eq_false (not_continues_of_byteChars_eq_cons hcs)
      exact List.takeWhile_cons_of_neg (Bool.not_eq_true _ ▸ hy)
  rw [hahead.tail.eatWhile_eq, List.takeWhile_append_of_pos hcontinue, hstop, List.append_nil,
    ← At.index_next, hbytes, List.length_cons]
  omega

theorem unrecognized?_eq {c : Char} (h : s.At before (c :: cs)) :
    s.unrecognized? (byteLength before) =
      some (.malformed (.unrecognized c), byteLength (before ++ [c])) := by
  have hcut : s.At before ([c] ++ cs) := h
  simp only [unrecognized?, h.eatWhile_isContinuation, hcut.slice?_eq, Option.bind_eq_bind,
    Option.bind_some, fromUTF8?_utf8Encode, String.toList_ofList]

theorem loneMark?_of_le {c : Char} (hc : 128 ≤ c.toNat) : loneMark? c = none := by
  have hne : ∀ d : Char, d.toNat < 128 → c ≠ d := by
    rintro d hd rfl
    omega
  have hlone : isLoneOperator c = false := Uniform.mem (by rfl) c hc
  unfold loneMark?
  split
  all_goals first
    | exact absurd rfl (hne _ (by decide))
    | rw [hlone]; rfl

theorem mark?_eq {c : Char} (h : s.At before (c :: cs)) :
    s.mark? (byteLength before) =
      some ((measureMark c cs).1, byteLength (before ++ c :: cs.take (measureMark c cs).2)) := by
  by_cases hc : c.toNat < 128
  · have hrun := h.eatWhile_next (p := (· == '=')) (.beq (by decide)) hc
    have hstarts := h.next.char_eq_iff (d := '=') (by decide) (by decide)
    rw [byteLength_concat_of_lt _ hc] at hstarts
    simp only [mark?, measureMark, h.char hc, hrun, hstarts, unrecognized?_eq h]
    rcases loneMark? c with _ | kind
    · simp only
      split
      · simp
      · split <;> simp
    · simp [byteLength_concat_of_lt _ hc]
  · have hc := Nat.not_lt.1 hc
    have hx := h.le_char hc
    have hne : ∀ y : Char, 128 ≤ y.toNat → y ≠ '=' := by
      rintro y hy rfl
      exact absurd hy (by decide)
    have hcomparison : Uniform isComparison false :=
      (Uniform.or (.beq (by decide)) (.beq (by decide))).or (.beq (by decide))
    rw [mark?, loneMark?_of_le (by omega), measureMark, loneMark?_of_le hc]
    simp only [hne _ hc, hne (s.char (byteLength before)) (by omega), hcomparison _ hc,
      hcomparison (s.char (byteLength before)) (by omega), unrecognized?_eq h]
    simp

/-! ## Segments -/

/-- A test on two bytes, the first one for a character of ASCII. -/
theorem At.char_and_iff {c d : Char} {p : Char → Bool} (h : s.At before (c :: cs))
    (hd : d.toNat < 128) (hp : Uniform p false) (hzero : p '\x00' = false) :
    (s.char (byteLength before) = d ∧ p (s.char (byteLength before + 1)) = true) ↔
      (c = d ∧ startsWith p cs = true) := by
  by_cases hc : c.toNat < 128
  · have hnext := h.next.test_eq hp hzero
    rw [byteLength_concat_of_lt _ hc] at hnext
    rw [h.char hc, hnext]
  · have hx := h.le_char (Nat.not_lt.1 hc)
    refine ⟨fun hboth => ?_, fun hboth => ?_⟩
    · rw [hboth.1] at hx
      omega
    · exact absurd (hboth.1 ▸ hd) hc

theorem segment?_eq {c : Char} (h : s.At before (c :: cs)) :
    s.segment? (byteLength before) =
      some ((measure c cs).1, byteLength (before ++ c :: cs.take (measure c cs).2)) := by
  have hblank : isAsciiBlank (s.char (byteLength before)) = isAsciiBlank c :=
    h.test_eq uniform_isAsciiBlank (by decide)
  have hstart : isWordStart (s.char (byteLength before)) = isWordStart c :=
    h.test_eq (Uniform.isAlpha.or (.beq (by decide))) (by decide)
  have hdigit : (s.char (byteLength before)).isDigit = c.isDigit :=
    h.test_eq Uniform.isDigit (by decide)
  have hlone : ∀ d : Char, d.toNat < 128 → d ≠ '\x00' →
      (s.char (byteLength before) = d ↔ c = d) := by
    intro d hd hzero
    rw [h.char_eq_iff hd hzero]
    exact beq_iff_eq
  have hline :=
    h.char_and_iff (d := '/') (p := (· == '/')) (by decide) (.beq (by decide)) (by decide)
  have hcomment :=
    h.char_and_iff (d := '/') (p := (· == '*')) (by decide) (.beq (by decide)) (by decide)
  have hbased := h.char_and_iff (d := '\'') (by decide) uniform_isBaseStart (by decide)
  rw [beq_iff_eq] at hline hcomment
  simp only [segment?, hblank, hline, hcomment, hlone '\x60' (by decide) (by decide), hstart,
    hlone '\\' (by decide) (by decide), hlone '$' (by decide) (by decide), hdigit, hbased,
    hlone '"' (by decide) (by decide)]
  fun_cases measure c cs with
  | case1 h0 => rw [if_pos h0, h.eatWhile_cons uniform_isAsciiBlank h0]
  | case2 h0 h1 =>
    have hrest : ('/' != '\n') = true := by decide
    rw [if_neg h0, if_pos h1,
      h.eatWhile_cons (p := (· != '\n')) (Uniform.beq (by decide)).not (h1.1 ▸ hrest)]
  | case3 h0 h1 h2 n hn =>
    rw [if_neg h0, if_neg h1, if_pos h2, blockFrom_eq h h2, hn, Nat.add_comm 1]
  | case4 h0 h1 h2 hn =>
    rw [if_neg h0, if_neg h1, if_pos h2, blockFrom_eq h h2, hn]
    simp
  | case5 h0 h1 h2 h3 =>
    subst h3
    rw [if_neg h0, if_neg h1, if_neg h2, if_pos rfl, backtick?_eq h]
  | case6 h0 h1 h2 h3 h4 =>
    rw [if_neg h0, if_neg h1, if_neg h2, if_neg h3, if_pos h4, word?_eq h h4]
  | case7 h0 h1 h2 h3 h4 h5 =>
    subst h5
    rw [if_neg h0, if_neg h1, if_neg h2, if_neg h3, if_neg h4, if_pos rfl, escaped_eq h]
  | case8 h0 h1 h2 h3 h4 h5 h6 =>
    subst h6
    rw [if_neg h0, if_neg h1, if_neg h2, if_neg h3, if_neg h4, if_neg h5, if_pos rfl,
      h.eatWhile_next uniform_isWordChar (by decide)]
  | case9 h0 h1 h2 h3 h4 h5 h6 h7 =>
    rw [if_neg h0, if_neg h1, if_neg h2, if_neg h3, if_neg h4, if_neg h5, if_neg h6, if_pos h7,
      numberFrom_eq h, numberLength_cons h7, List.take_succ_cons]
  | case10 h0 h1 h2 h3 h4 h5 h6 h7 h8 =>
    have hvalue := basedFrom_eq h.next
    rw [h8.1, byteLength_concat_of_lt _ (by decide), List.append_assoc] at hvalue
    rw [if_neg h0, if_neg h1, if_neg h2, if_neg h3, if_neg h4, if_neg h5, if_neg h6, if_neg h7,
      if_pos h8, hvalue, h8.1]
    rfl
  | case11 h0 h1 h2 h3 h4 h5 h6 h7 h8 h9 =>
    have hvalue := stringFrom_eq h.next
    rw [h9, byteLength_concat_of_lt _ (by decide), List.append_assoc] at hvalue
    rw [if_neg h0, if_neg h1, if_neg h2, if_neg h3, if_neg h4, if_neg h5, if_neg h6, if_neg h7,
      if_neg h8, if_pos h9, hvalue, h9]
    rfl
  | case12 h0 h1 h2 h3 h4 h5 h6 h7 h8 h9 =>
    rw [if_neg h0, if_neg h1, if_neg h2, if_neg h3, if_neg h4, if_neg h5, if_neg h6, if_neg h7,
      if_neg h8, if_neg h9, mark?_eq h]

/-- **The lexer by byte does not fail**, and reads what the cut into segments says. -/
theorem lexFrom?_eq (h : s.At before cs) :
    s.lexFrom? (byteLength before) =
      some ⟨tokensFrom (byteLength before) (split cs),
        diagnosticsFrom (byteLength before) (split cs)⟩ := by
  fun_induction split cs generalizing before with
  | case1 =>
    rw [lexFrom?, if_neg h.not_lt_size]
    rfl
  | case2 c cs ih =>
    have hcut : s.At before (c :: cs.take (measure c cs).2 ++ cs.drop (measure c cs).2) := by
      rwa [List.cons_append, List.take_append_drop]
    have hindex := byteLength_append before (c :: cs.take (measure c cs).2)
    have hlt : byteLength before < byteLength (before ++ c :: cs.take (measure c cs).2) := by
      have := c.utf8Size_pos
      rw [hindex, byteLength_cons]
      omega
    rw [lexFrom?, if_pos h.lt_size, segment?_eq h]
    simp only [Option.bind_eq_bind, Option.bind_some,
      if_pos (show s.Advances _ _ from ⟨h.lt_size, hlt⟩),
      ih hcut.append]
    rw [tokensFrom, diagnosticsFrom]
    simp only [Segment.spanAt, Segment.byteLength, hindex]
    cases (measure c cs).1.tokenKind? <;> rfl

end ByteLexer

theorem Lexing.ofSource?_eq (source : String) :
    Lexing.ofSource? source = some (Lexing.ofSource source) := by
  have hbytes : source.toUTF8.data = (Text.encode ([] ++ source.toList)).toArray := by
    have hencode : source.toUTF8 = source.toList.utf8Encode := String.utf8Encode_toList.symm
    rw [List.nil_append, hencode, List.utf8Encode, List.data_toByteArray]
    rfl
  have hstart : ByteLexer.At ⟨source.toUTF8.data⟩ [] source.toList := hbytes
  exact ByteLexer.lexFrom?_eq hstart

end VerilogScaffold
