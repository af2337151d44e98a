import Mathlib.Data.List.DropRight
import VerilogScaffold.Json.Reader

/-!
# Values are read back from their text

`Json.ReadsBack` says of a value that the reader gets it from what is written for it, whatever
follows that may follow a value. It holds of texts and natural numbers, and of arrays and records if
it holds of what they are made of. The end of the text is one of the things that may follow
(`Json.ofString?_compact`).

A string is read in two steps, and each of them takes what is written for one character at a time.
There are three ways to write a character (`escapeChar_cases`), with one lemma for each of them and
each step. Values and their parts are read within a bound. Every step spends one of it and at least
one character, so the length of what is written is bound enough.
-/

namespace VerilogScaffold.Json

/-! ## Characters -/

theorem hexValue?_hexDigit {n : Nat} (h : n < 16) : hexValue? (hexDigit n) = some n := by
  decide +revert

/-- A control character is written by the number that it has. -/
theorem hexUnit?_hexDigit {n : Nat} (h : n < 0x20) :
    hexUnit? '0' '0' (hexDigit (n / 16)) (hexDigit (n % 16)) = some n := by
  have hzero : hexValue? '0' = some 0 := rfl
  rw [hexUnit?, hzero, hexValue?_hexDigit (by omega), hexValue?_hexDigit (by omega)]
  show some (((0 * 16 + 0) * 16 + n / 16) * 16 + n % 16) = some n
  congr 1
  omega

/-- The ways in which a character is written in a string: by one letter, by its number, or as it
is. -/
theorem escapeChar_cases (c : Char) :
    (∃ e, escapeChar c = ['\\', e] ∧ shortEscape? e = some c) ∨
      (∃ x y, escapeChar c = ['\\', 'u', '0', '0', x, y] ∧ hexUnit? '0' '0' x y = some c.toNat ∧
        c.toNat < 0x20) ∨
      (escapeChar c = [c] ∧ c ≠ '"' ∧ c ≠ '\\' ∧ 0x20 ≤ c.toNat) := by
  unfold escapeChar
  split
  case h_8 hquote hbackslash _ _ _ _ _ =>
    split
    case isTrue hcontrol => exact .inr (.inl ⟨_, _, rfl, hexUnit?_hexDigit hcontrol, hcontrol⟩)
    case isFalse hcontrol => exact .inr (.inr ⟨rfl, hquote, hbackslash, Nat.le_of_not_lt hcontrol⟩)
  all_goals exact .inl ⟨_, rfl, rfl⟩

theorem ne_u_of_shortEscape? {e c : Char} (h : shortEscape? e = some c) : e ≠ 'u' := by
  rintro rfl
  cases h

/-! ## The end of a string -/

theorem splitBody?_short {e c : Char} (h : shortEscape? e = some c) (cs : List Char) :
    splitBody? ('\\' :: e :: cs) = (splitBody? cs).map fun (body, rest) =>
      ('\\' :: e :: body, rest) := by
  rw [splitBody?]
  · rw [h]
    rcases splitBody? cs with _ | ⟨body, rest⟩ <;> rfl
  · intro _ _ _ _ _ hu
    exact absurd hu (ne_u_of_shortEscape? h)

theorem splitBody?_unit {a b c d : Char} {unit : Nat} (h : hexUnit? a b c d = some unit)
    (cs : List Char) :
    splitBody? ('\\' :: 'u' :: a :: b :: c :: d :: cs) =
      (splitBody? cs).map fun (body, rest) => ('\\' :: 'u' :: a :: b :: c :: d :: body, rest) := by
  rw [splitBody?, h]
  rcases splitBody? cs with _ | ⟨body, rest⟩ <;> rfl

theorem splitBody?_plain {c : Char} (hquote : c ≠ '"') (hbackslash : c ≠ '\\')
    (hplain : 0x20 ≤ c.toNat)
    (cs : List Char) :
    splitBody? (c :: cs) = (splitBody? cs).map fun (body, rest) => (c :: body, rest) := by
  have hallowed : ¬ (c = '\\' ∨ c.toNat < 0x20) := by
    rintro (h | h)
    · exact hbackslash h
    · omega
  rw [splitBody?, if_neg hallowed]
  · rcases splitBody? cs with _ | ⟨body, rest⟩ <;> rfl
  · exact hquote
  · intro _ _ _ _ _ h
    exact absurd h hbackslash
  · intro _ _ h
    exact absurd h hbackslash

theorem splitBody?_escapeChar (c : Char) (cs : List Char) :
    splitBody? (escapeChar c ++ cs) = (splitBody? cs).map fun (body, rest) =>
      (escapeChar c ++ body, rest) := by
  rcases escapeChar_cases c with ⟨e, hc, hshort⟩ | ⟨x, y, hc, hunit, -⟩ |
    ⟨hc, hquote, hbackslash, hplain⟩
  · rw [hc]
    exact splitBody?_short hshort cs
  · rw [hc]
    exact splitBody?_unit hunit cs
  · rw [hc]
    exact splitBody?_plain hquote hbackslash hplain cs

/-- A string ends at the first quote that is not written as part of it. -/
theorem splitBody?_flatMap (cs rest : List Char) :
    splitBody? (cs.flatMap escapeChar ++ '"' :: rest) = some (cs.flatMap escapeChar, rest) := by
  induction cs with
  | nil => rfl
  | cons c cs ih =>
    rw [List.flatMap_cons, List.append_assoc, splitBody?_escapeChar, ih]
    rfl

/-! ## The text of a string -/

theorem decodeBody?_short {e c : Char} (h : shortEscape? e = some c) (cs : List Char) :
    decodeBody? ('\\' :: e :: cs) = (decodeBody? cs).map (c :: ·) := by
  rw [decodeBody?]
  · rw [h]
    rcases decodeBody? cs with _ | text <;> rfl
  · intro _ _ _ _ _ _ _ _ _ hu
    exact absurd hu (ne_u_of_shortEscape? h)
  · intro _ _ _ _ _ hu
    exact absurd hu (ne_u_of_shortEscape? h)

/-- A number below the surrogates stands for its character, also where another escape follows. -/
theorem decodeBody?_unit {a b c d : Char} {unit : Nat} (h : hexUnit? a b c d = some unit)
    (hunit : unit < 0xD800) (cs : List Char) :
    decodeBody? ('\\' :: 'u' :: a :: b :: c :: d :: cs) =
      (decodeBody? cs).map (Char.ofNat unit :: ·) := by
  have hhigh : isHighSurrogate unit = false := by
    unfold isHighSurrogate
    rw [decide_eq_false (Nat.not_le_of_lt hunit), Bool.false_and]
  have hlow : isLowSurrogate unit = false := by
    unfold isLowSurrogate
    rw [decide_eq_false (by omega), Bool.false_and]
  -- where another number follows, the two are looked at together and found not to be a pair
  by_cases hnext : ∃ e f g h rest, cs = '\\' :: 'u' :: e :: f :: g :: h :: rest
  · obtain ⟨e, f, g, i, rest, rfl⟩ := hnext
    rw [decodeBody?, h]
    simp only [Option.bind_eq_bind, Option.bind_some, hhigh, hlow, Bool.false_eq_true, if_false]
    rcases decodeBody? _ with _ | text <;> rfl
  · rw [decodeBody?, h]
    · simp only [Option.bind_eq_bind, Option.bind_some, hhigh, hlow, Bool.or_self,
        Bool.false_eq_true, if_false]
      rcases decodeBody? cs with _ | text <;> rfl
    · intro e f g i rest hcs
      exact hnext ⟨e, f, g, i, rest, hcs⟩

theorem decodeBody?_plain {c : Char} (hbackslash : c ≠ '\\') (cs : List Char) :
    decodeBody? (c :: cs) = (decodeBody? cs).map (c :: ·) := by
  rw [decodeBody?]
  · rcases decodeBody? cs with _ | text <;> rfl
  · intro _ _ _ _ _ _ _ _ _ h
    exact absurd h hbackslash
  · intro _ _ _ _ _ h
    exact absurd h hbackslash
  · intro _ _ h
    exact absurd h hbackslash

theorem decodeBody?_escapeChar (c : Char) (cs : List Char) :
    decodeBody? (escapeChar c ++ cs) = (decodeBody? cs).map (c :: ·) := by
  rcases escapeChar_cases c with ⟨e, hc, hshort⟩ | ⟨x, y, hc, hunit, hcontrol⟩ |
    ⟨hc, -, hbackslash, -⟩
  · rw [hc]
    exact decodeBody?_short hshort cs
  · have h := decodeBody?_unit hunit (by omega) cs
    rw [Char.ofNat_toNat] at h
    rw [hc]
    exact h
  · rw [hc]
    exact decodeBody?_plain hbackslash cs

/-- The text of a string is what was written for it. -/
theorem decodeBody?_flatMap (cs : List Char) : decodeBody? (cs.flatMap escapeChar) = some cs := by
  induction cs with
  | nil => rfl
  | cons c cs ih =>
    rw [List.flatMap_cons, decodeBody?_escapeChar, ih]
    rfl

theorem readString?_text (s : String) (rest : List Char) :
    readString? (stringBody (.text s) ++ '"' :: rest) = some (.text s, rest) := by
  unfold readString? stringBody
  rw [splitBody?_flatMap]
  simp only [Option.bind_eq_bind, Option.bind_some, decodeBody?_flatMap, String.ofList_toList,
    Option.pure_def]

/-! ## Numbers -/

/-- What may stand behind a value that is written without blanks. -/
def FollowsValue (rest : List Char) : Prop := ∀ c ∈ rest.head?, c = ',' ∨ c = ']' ∨ c = '\x7d'

theorem splitDigits_append {digits rest : List Char} (hdigits : ∀ c ∈ digits, c.isDigit = true)
    (hrest : FollowsValue rest) : splitDigits (digits ++ rest) = (digits, rest) := by
  unfold splitDigits
  rw [List.takeWhile_append_of_pos hdigits, List.dropWhile_append_of_pos hdigits]
  rcases rest with _ | ⟨c, rest⟩
  · rw [List.takeWhile_nil, List.dropWhile_nil, List.append_nil]
  · have hstop : c.isDigit = false := by
      rcases hrest c rfl with rfl | rfl | rfl <;> rfl
    rw [List.takeWhile_cons, List.dropWhile_cons, hstop]
    simp only [Bool.false_eq_true, if_false, List.append_nil]

theorem splitFraction?_of_followsValue {rest : List Char} (hrest : FollowsValue rest) :
    splitFraction? rest = some ([], rest) := by
  rcases rest with _ | ⟨c, rest⟩
  · rfl
  · rcases hrest c rfl with rfl | rfl | rfl <;> rfl

theorem splitExponent?_of_followsValue {rest : List Char} (hrest : FollowsValue rest) :
    splitExponent? rest = some ([], rest) := by
  rcases rest with _ | ⟨c, rest⟩
  · rfl
  · rcases hrest c rfl with rfl | rfl | rfl <;> rfl

/-- A number starts with a digit, and with a zero only if it is zero. -/
theorem exists_head_toDigits (n : Nat) :
    ∃ d ds, Nat.toDigits 10 n = d :: ds ∧ d.isDigit = true ∧ (d = '0' → n = 0) := by
  induction n using Nat.strong_induction_on with
  | _ n ih =>
    by_cases hn : n < 10
    · refine ⟨n.digitChar, [], Nat.toDigits_of_lt_base hn, ?_, Nat.digitChar_eq_zero.1⟩
      rw [Nat.isDigit_digitChar]
      exact decide_eq_true hn
    · obtain ⟨d, ds, hdigits, hd, hzero⟩ := ih (n / 10) (by omega)
      refine ⟨d, ds ++ [(n % 10).digitChar], ?_, hd, ?_⟩
      · rw [Nat.toDigits_of_base_le (by omega) (by omega), hdigits, List.cons_append]
      · intro h
        have := hzero h
        omega

theorem splitInteger?_toDigits (n : Nat) {rest : List Char} (hrest : FollowsValue rest) :
    splitInteger? (Nat.toDigits 10 n ++ rest) = some (Nat.toDigits 10 n, rest) := by
  -- a number that starts with a zero ends there
  by_cases hn : n = 0
  · rw [hn, Nat.toDigits_zero]
    rfl
  · obtain ⟨d, ds, hdigits, -, hzero⟩ := exists_head_toDigits n
    have hall : ∀ c ∈ d :: ds, c.isDigit = true := by
      intro c hc
      rw [← hdigits] at hc
      exact Nat.isDigit_of_mem_toDigits (by omega) (by omega) hc
    have hsplit := splitDigits_append hall hrest
    rw [hdigits, List.cons_append, splitInteger?, splitDigits1?, ← List.cons_append, hsplit]
    intro _ hcs
    exact hn (hzero (List.cons.inj hcs).1)

theorem readNumber?_toDigits (n : Nat) {rest : List Char} (hrest : FollowsValue rest) :
    readNumber? (Nat.toDigits 10 n ++ rest) = some (.ofNat n, rest) := by
  -- a number that starts with a digit has no sign
  have hsign : ∀ cs, Nat.toDigits 10 n ++ rest ≠ '-' :: cs := by
    intro cs hcs
    obtain ⟨d, ds, hdigits, hd, -⟩ := exists_head_toDigits n
    rw [hdigits] at hcs
    rw [(List.cons.inj hcs).1] at hd
    cases hd
  unfold readNumber?
  split
  rename_i sign unsigned hunsigned
  split at hunsigned
  · exact absurd ‹_› (hsign _)
  · obtain ⟨rfl, rfl⟩ := Prod.mk.inj hunsigned
    simp only [splitInteger?_toDigits n hrest, splitFraction?_of_followsValue hrest,
      splitExponent?_of_followsValue hrest, Option.bind_eq_bind, Option.bind_some, Option.pure_def,
      List.nil_append, List.append_nil, ofNat]

/-! ## One step of the reader -/

theorem skipBlanks_skipBlanks (cs : List Char) : skipBlanks (skipBlanks cs) = skipBlanks cs :=
  List.dropWhile_idempotent (p := isJsonBlank) (l := cs)

theorem readValue?_skipBlanks (bound : Nat) (cs : List Char) :
    readValue? bound (skipBlanks cs) = readValue? bound cs := by
  rcases bound with _ | bound
  · rfl
  · rw [readValue?, readValue?, skipBlanks_skipBlanks]

theorem readEntry?_skipBlanks (bound : Nat) (cs : List Char) :
    readEntry? bound (skipBlanks cs) = readEntry? bound cs := by
  rcases bound with _ | bound
  · rfl
  · unfold readEntry?
    rw [skipBlanks_skipBlanks]

theorem readValue?_of_isDigit {d : Char} (hd : d.isDigit = true) (bound : Nat) (cs : List Char) :
    readValue? (bound + 1) (d :: cs) = readNumber? (d :: cs) := by
  have hblank : skipBlanks (d :: cs) = d :: cs := by
    unfold skipBlanks
    rw [List.dropWhile_cons, if_neg]
    intro hblank
    simp only [isJsonBlank, Bool.or_eq_true, beq_iff_eq] at hblank
    rcases hblank with ((rfl | rfl) | rfl) | rfl <;> cases hd
  rw [readValue?, hblank]
  split
  case h_7 => rfl
  -- no other value starts with a digit
  all_goals
    rename_i hcs
    rw [(List.cons.inj hcs).1] at hd
    cases hd

section

variable {bound : Nat} {cs rest after : List Char} {item : Json} {items : List Json}
  {entry : JsonString × Json} {entries : List (JsonString × Json)}

/-- What opens an array and goes on with a value is an array that has it as its first item. -/
theorem readValue?_array (hitem : readValue? bound cs = some (item, rest))
    (hitems : readItems? bound rest = some (items, after)) :
    readValue? (bound + 1) ('[' :: cs) = some (.array (item :: items), after) := by
  have hopen : skipBlanks ('[' :: cs) = '[' :: cs := rfl
  rw [← readValue?_skipBlanks] at hitem
  simp only [readValue?, hopen]
  split
  · -- no value starts with the closing bracket
    rename_i hclose
    rw [hclose] at hitem
    rcases bound with _ | bound <;> cases hitem
  · simp only [hitem, hitems, Option.bind_eq_bind, Option.bind_some, Option.pure_def]

/-- What opens an object and goes on with an entry is an object that has it as its first entry. -/
theorem readValue?_object (hentry : readEntry? bound cs = some (entry, rest))
    (hentries : readEntries? bound rest = some (entries, after)) :
    readValue? (bound + 1) ('\x7b' :: cs) = some (.object (entry :: entries), after) := by
  have hopen : skipBlanks ('\x7b' :: cs) = '\x7b' :: cs := rfl
  rw [← readEntry?_skipBlanks] at hentry
  simp only [readValue?, hopen]
  split
  · -- no entry starts with the closing brace
    rename_i hclose
    rw [hclose] at hentry
    rcases bound with _ | bound <;> cases hentry
  · simp only [hentry, hentries, Option.bind_eq_bind, Option.bind_some, Option.pure_def]

theorem readItems?_comma (hitem : readValue? bound cs = some (item, rest))
    (hitems : readItems? bound rest = some (items, after)) :
    readItems? (bound + 1) (',' :: cs) = some (item :: items, after) := by
  rw [readItems?]
  show (readValue? bound cs).bind _ = _
  simp only [hitem, hitems, Option.bind_eq_bind, Option.bind_some, Option.pure_def]

theorem readEntries?_comma (hentry : readEntry? bound cs = some (entry, rest))
    (hentries : readEntries? bound rest = some (entries, after)) :
    readEntries? (bound + 1) (',' :: cs) = some (entry :: entries, after) := by
  rw [readEntries?]
  show Option.bind _ _ = _
  simp only [hentry, hentries, Option.bind_eq_bind, Option.bind_some, Option.pure_def]

theorem readEntry?_text {value : Json} (key : String)
    (hvalue : readValue? bound cs = some (value, rest)) :
    readEntry? (bound + 1) (writeString (.text key) ++ ':' :: cs) =
      some ((.text key, value), rest) := by
  unfold readEntry?
  rw [writeString, List.cons_append, List.append_assoc, List.singleton_append]
  show (readString? (stringBody (.text key) ++ '"' :: ':' :: cs)).bind _ = _
  rw [readString?_text]
  show (readValue? bound cs).bind _ = _
  rw [hvalue]
  rfl

end

/-! ## Values -/

/-- Whether a value is read back from what is written for it, whatever follows. -/
def ReadsBack (j : Json) : Prop :=
  ∀ bound rest, FollowsValue rest → (write j).length ≤ bound →
    readValue? bound (write j ++ rest) = some (j, rest)

theorem readsBack_ofNat (n : Nat) : (ofNat n).ReadsBack := by
  intro bound rest hrest hbound
  obtain ⟨d, ds, hdigits, hd, -⟩ := exists_head_toDigits n
  have hread := readNumber?_toDigits n hrest
  rw [ofNat, write, hdigits] at hbound ⊢
  rw [ofNat, hdigits] at hread
  rw [List.length_cons] at hbound
  obtain ⟨bound, rfl⟩ := Nat.exists_eq_add_one_of_ne_zero (show bound ≠ 0 by omega)
  rw [List.cons_append] at hread ⊢
  rw [readValue?_of_isDigit hd, hread]

theorem readsBack_ofText (s : String) : (ofText s).ReadsBack := by
  intro bound rest _ hbound
  rw [ofText, write, writeString] at hbound ⊢
  rw [List.length_cons] at hbound
  obtain ⟨bound, rfl⟩ := Nat.exists_eq_add_one_of_ne_zero (show bound ≠ 0 by omega)
  rw [List.cons_append, List.append_assoc, List.singleton_append]
  show (readString? (stringBody (.text s) ++ '"' :: rest)).map _ = _
  rw [readString?_text]
  rfl

/-- What is written behind an item may stand behind a value. -/
theorem followsValue_writeItems (items : List Json) (rest : List Char) :
    FollowsValue (writeItems items ++ rest) := by
  intro c hc
  cases items with
  | nil =>
    obtain rfl := Option.some.inj hc
    exact .inr (.inl rfl)
  | cons item items =>
    obtain rfl := Option.some.inj hc
    exact .inl rfl

theorem readItems?_writeItems {items : List Json} (h : ∀ j ∈ items, j.ReadsBack) (bound : Nat)
    (rest : List Char) (hbound : (writeItems items).length ≤ bound) :
    readItems? bound (writeItems items ++ rest) = some (items, rest) := by
  induction items generalizing bound with
  | nil =>
    rw [writeItems, List.length_singleton] at hbound
    obtain ⟨bound, rfl⟩ := Nat.exists_eq_add_one_of_ne_zero (show bound ≠ 0 by omega)
    rfl
  | cons item items ih =>
    rw [writeItems, List.length_cons, List.length_append] at hbound
    obtain ⟨bound, rfl⟩ := Nat.exists_eq_add_one_of_ne_zero (show bound ≠ 0 by omega)
    have hitem :=
      h item (List.mem_cons_self ..) bound _ (followsValue_writeItems items rest) (by omega)
    have hitems := ih (fun j hj => h j (List.mem_cons_of_mem _ hj)) bound (by omega)
    rw [writeItems, List.cons_append, List.append_assoc]
    exact readItems?_comma hitem hitems

theorem readsBack_array {items : List Json} (h : ∀ j ∈ items, j.ReadsBack) :
    (array items).ReadsBack := by
  intro bound rest _ hbound
  cases items with
  | nil =>
    rw [write, List.length_cons] at hbound
    obtain ⟨bound, rfl⟩ := Nat.exists_eq_add_one_of_ne_zero (show bound ≠ 0 by omega)
    rfl
  | cons item items =>
    rw [write, List.length_cons, List.length_append] at hbound
    obtain ⟨bound, rfl⟩ := Nat.exists_eq_add_one_of_ne_zero (show bound ≠ 0 by omega)
    have hitem :=
      h item (List.mem_cons_self ..) bound _ (followsValue_writeItems items rest) (by omega)
    have hitems := readItems?_writeItems (fun j hj => h j (List.mem_cons_of_mem _ hj))
      bound rest (by omega)
    rw [write, List.cons_append, List.append_assoc]
    exact readValue?_array hitem hitems

/-- What is written behind an entry may stand behind a value. -/
theorem followsValue_writeEntries (entries : List (JsonString × Json)) (rest : List Char) :
    FollowsValue (writeEntries entries ++ rest) := by
  intro c hc
  cases entries with
  | nil =>
    obtain rfl := Option.some.inj hc
    exact .inr (.inr rfl)
  | cons entry entries =>
    obtain rfl := Option.some.inj hc
    exact .inl rfl

theorem readEntry?_write {value : Json} (h : value.ReadsBack) (name : String) (bound : Nat)
    {rest : List Char} (hrest : FollowsValue rest) (hbound : (write value).length < bound) :
    readEntry? bound (writeString (.text name) ++ ':' :: (write value ++ rest)) =
      some ((.text name, value), rest) := by
  obtain ⟨bound, rfl⟩ := Nat.exists_eq_add_one_of_ne_zero (show bound ≠ 0 by omega)
  apply readEntry?_text
  exact h bound rest hrest (by omega)

theorem readEntries?_writeEntries {fields : List (String × Json)}
    (h : ∀ f ∈ fields, f.2.ReadsBack) (bound : Nat)
    (rest : List Char)
    (hbound : (writeEntries (fields.map fun f => (.text f.1, f.2))).length ≤ bound) :
    readEntries? bound (writeEntries (fields.map fun f => (.text f.1, f.2)) ++ rest) =
      some (fields.map fun f => (.text f.1, f.2), rest) := by
  induction fields generalizing bound with
  | nil =>
    rw [List.map_nil, writeEntries, List.length_singleton] at hbound
    obtain ⟨bound, rfl⟩ := Nat.exists_eq_add_one_of_ne_zero (show bound ≠ 0 by omega)
    rfl
  | cons field fields ih =>
    rw [List.map_cons, writeEntries] at hbound ⊢
    simp only [List.length_cons, List.length_append] at hbound
    obtain ⟨bound, rfl⟩ := Nat.exists_eq_add_one_of_ne_zero (show bound ≠ 0 by omega)
    have hfollows := followsValue_writeEntries (fields.map fun f => (.text f.1, f.2)) rest
    have hentry := readEntry?_write (h field (List.mem_cons_self ..)) field.1 bound
      hfollows (by omega)
    have hentries := ih (fun f hf => h f (List.mem_cons_of_mem _ hf)) bound (by omega)
    simp only [List.cons_append, List.append_assoc]
    exact readEntries?_comma hentry hentries

theorem readsBack_ofFields {fields : List (String × Json)} (h : ∀ f ∈ fields, f.2.ReadsBack) :
    (ofFields fields).ReadsBack := by
  intro bound rest _ hbound
  cases fields with
  | nil =>
    rw [ofFields, List.map_nil, write, List.length_cons] at hbound
    obtain ⟨bound, rfl⟩ := Nat.exists_eq_add_one_of_ne_zero (show bound ≠ 0 by omega)
    rfl
  | cons field fields =>
    rw [ofFields, List.map_cons, write] at hbound ⊢
    simp only [List.length_cons, List.length_append] at hbound
    obtain ⟨bound, rfl⟩ := Nat.exists_eq_add_one_of_ne_zero (show bound ≠ 0 by omega)
    have hfollows := followsValue_writeEntries (fields.map fun f => (.text f.1, f.2)) rest
    have hentry := readEntry?_write (h field (List.mem_cons_self ..)) field.1 bound
      hfollows (by omega)
    have hentries :=
      readEntries?_writeEntries (fun f hf => h f (List.mem_cons_of_mem _ hf)) bound rest (by omega)
    simp only [List.cons_append, List.append_assoc]
    exact readValue?_object hentry hentries

/-- **A value is read from the text that is written for it.** -/
theorem ofString?_compact {j : Json} (h : j.ReadsBack) : ofString? j.compact = some j := by
  have hread := h (2 * (write j).length + 2) [] (fun c hc => by cases hc) (by omega)
  rw [List.append_nil] at hread
  unfold ofString? compact
  simp only [String.toList_ofList, hread, Option.bind_eq_bind, Option.bind_some]
  rfl

end VerilogScaffold.Json
