import VerilogScaffold.Proofs.Boundary

/-!
# Characters by their bytes

A character of ASCII is one byte, its number. Every other character is a byte from `0xC0` on and
then bytes from `0x80` up to there, so no byte of it is the number of an ASCII character. A test
that does not tell the characters beyond ASCII apart (`Uniform`) therefore comes out on the bytes of
a text as on its characters, with the bytes read as the characters of those numbers
(`length_takeWhile_byteChars`).
-/

namespace VerilogScaffold.Text

/-- The UTF-8 form of a text. -/
def encode (cs : List Char) : List UInt8 := cs.flatMap String.utf8EncodeChar

/-- The characters with the numbers of the bytes of a text. -/
def byteChars (cs : List Char) : List Char := (encode cs).map Char.ofUInt8

@[simp] theorem encode_nil : encode [] = [] := rfl

@[simp] theorem encode_cons (c : Char) (cs : List Char) :
    encode (c :: cs) = String.utf8EncodeChar c ++ encode cs := rfl

@[simp] theorem encode_append (xs ys : List Char) : encode (xs ++ ys) = encode xs ++ encode ys :=
  List.flatMap_append

@[simp] theorem length_encode (cs : List Char) : (encode cs).length = byteLength cs := by
  induction cs with
  | nil => rfl
  | cons c cs ih => simp [byteLength, ih]

@[simp] theorem byteChars_append (xs ys : List Char) :
    byteChars (xs ++ ys) = byteChars xs ++ byteChars ys := by
  rw [byteChars, encode_append, List.map_append]
  rfl

@[simp] theorem length_byteChars (cs : List Char) : (byteChars cs).length = byteLength cs := by
  rw [byteChars, List.length_map, length_encode]

/-! ## ASCII and beyond -/

theorem toNat_ofUInt8 (b : UInt8) : (Char.ofUInt8 b).toNat = b.toNat := rfl

theorem utf8Size_of_lt {c : Char} (h : c.toNat < 128) : c.utf8Size = 1 := by
  rw [Char.utf8Size_eq_one_iff, UInt32.le_iff_toNat_le]
  exact Nat.le_of_lt_succ h

theorem byteLength_concat_of_lt (cs : List Char) {c : Char} (h : c.toNat < 128) :
    byteLength (cs ++ [c]) = byteLength cs + 1 := by
  rw [byteLength_append, byteLength_cons, utf8Size_of_lt h]
  rfl

theorem byteChars_of_lt {c : Char} (h : c.toNat < 128) : byteChars [c] = [c] := by
  have hbytes := String.utf8EncodeChar_eq_singleton (utf8Size_of_lt h)
  have hchar : Char.ofUInt8 c.val.toUInt8 = c := by
    apply Char.ext
    apply UInt32.toNat_inj.1
    show c.val.toNat % 256 = c.val.toNat
    exact Nat.mod_eq_of_lt (Nat.lt_trans h (by decide))
  rw [byteChars, encode_cons, hbytes, encode_nil, List.append_nil, List.map_singleton, hchar]

/-- A byte of a character beyond ASCII that it does not start with. -/
def Continues (x : Char) : Prop := 128 ≤ x.toNat ∧ x.toNat < 192

/-- A character beyond ASCII starts with a byte of its own kind, and continues with bytes of
another. -/
theorem byteChars_of_le {c : Char} (h : 128 ≤ c.toNat) :
    ∃ x xs, byteChars [c] = x :: xs ∧ 192 ≤ x.toNat ∧ ∀ y ∈ xs, Continues y := by
  have hcontinues : ∀ n, Continues (Char.ofUInt8 (UInt8.ofNat (n % 0x40 + 0x80))) := by
    intro n
    have hn : n % 0x40 < 0x40 := Nat.mod_lt n (by decide)
    rw [Continues, toNat_ofUInt8, UInt8.toNat_ofNat']
    omega
  have hstarts : ∀ n, 192 ≤ n → n < 256 → 192 ≤ (Char.ofUInt8 (UInt8.ofNat n)).toNat := by
    intro n hn hlt
    rw [toNat_ofUInt8, UInt8.toNat_ofNat']
    omega
  have hval : ¬ c.val.toNat ≤ 0x7f := Nat.not_le.2 h
  simp only [byteChars, encode_cons, encode_nil, List.append_nil,
    String.utf8EncodeChar, if_neg hval]
  generalize c.val.toNat = v
  split
  · refine ⟨_, _, List.map_cons, hstarts _ (by omega) (by omega), ?_⟩
    simp only [List.map_cons, List.map_nil, List.forall_mem_cons]
    exact ⟨hcontinues _, List.forall_mem_nil _⟩
  · split
    · refine ⟨_, _, List.map_cons, hstarts _ (by omega) (by omega), ?_⟩
      simp only [List.map_cons, List.map_nil, List.forall_mem_cons]
      exact ⟨hcontinues _, hcontinues _, List.forall_mem_nil _⟩
    · refine ⟨_, _, List.map_cons, hstarts _ (by omega) (by omega), ?_⟩
      simp only [List.map_cons, List.map_nil, List.forall_mem_cons]
      exact ⟨hcontinues _, hcontinues _, hcontinues _, List.forall_mem_nil _⟩

theorem byteChars_cons (c : Char) (cs : List Char) :
    byteChars (c :: cs) = byteChars [c] ++ byteChars cs :=
  byteChars_append [c] cs

/-- All bytes of a character beyond ASCII are beyond ASCII. -/
theorem le_of_mem_byteChars {c : Char} (h : 128 ≤ c.toNat) {x : Char} (hx : x ∈ byteChars [c]) :
    128 ≤ x.toNat := by
  obtain ⟨y, ys, hbytes, hy, hys⟩ := byteChars_of_le h
  rw [hbytes] at hx
  rcases List.mem_cons.1 hx with rfl | hx
  · omega
  · exact (hys x hx).1

/-- After its first byte a character has only bytes that continue one. -/
theorem exists_byteChars_eq_cons (c : Char) :
    ∃ x xs, byteChars [c] = x :: xs ∧ ∀ y ∈ xs, Continues y := by
  by_cases hc : c.toNat < 128
  · exact ⟨c, [], byteChars_of_lt hc, List.forall_mem_nil _⟩
  · obtain ⟨x, xs, hbytes, -, hxs⟩ := byteChars_of_le (Nat.not_lt.1 hc)
    exact ⟨x, xs, hbytes, hxs⟩

/-- No text starts with a byte that continues a character. -/
theorem not_continues_of_byteChars_eq_cons {cs : List Char} {x : Char} {xs : List Char}
    (h : byteChars cs = x :: xs) : ¬ Continues x := by
  rintro ⟨hle, hlt⟩
  rcases cs with _ | ⟨c, cs⟩
  · cases h
  · rw [byteChars_cons] at h
    by_cases hc : c.toNat < 128
    · rw [byteChars_of_lt hc] at h
      obtain rfl := (List.cons.inj h).1
      omega
    · obtain ⟨y, ys, hbytes, hy, -⟩ := byteChars_of_le (Nat.not_lt.1 hc)
      rw [hbytes] at h
      obtain rfl := (List.cons.inj h).1
      omega

theorem toNat_lt_of_mem_byteChars {cs : List Char} {x : Char} (h : x ∈ byteChars cs) :
    x.toNat < 256 := by
  obtain ⟨b, -, rfl⟩ := List.mem_map.1 h
  exact b.toNat_lt

/-! ## Tests -/

/-- A test that comes out the same on all characters beyond ASCII. -/
def Uniform (p : Char → Bool) (v : Bool) : Prop := ∀ c : Char, 128 ≤ c.toNat → p c = v

namespace Uniform

variable {p q : Char → Bool} {u v : Bool}

theorem or (hp : Uniform p u) (hq : Uniform q v) : Uniform (fun c => p c || q c) (u || v) := by
  intro c hc
  show (p c || q c) = _
  rw [hp c hc, hq c hc]

theorem not (hp : Uniform p v) : Uniform (fun c => !p c) (!v) := by
  intro c hc
  show (!p c) = _
  rw [hp c hc]

theorem mem {ds : List Char} (hds : ds.all (fun d => d.toNat < 128) = true) :
    Uniform (fun c => decide (c ∈ ds)) false := by
  intro c hc
  refine decide_eq_false fun hmem => ?_
  have := of_decide_eq_true (List.all_eq_true.1 hds c hmem)
  omega

theorem beq {d : Char} (hd : d.toNat < 128) : Uniform (· == d) false := by
  intro c hc
  rw [beq_eq_false_iff_ne]
  rintro rfl
  omega

/-- A test that fails beyond ASCII holds on characters of ASCII only. -/
theorem lt_of_eq_true {c : Char} (hp : Uniform p false) (h : p c = true) : c.toNat < 128 := by
  refine Nat.lt_of_not_le fun hc => ?_
  rw [hp c hc] at h
  cases h

/-- No character beyond ASCII is at or below one of ASCII. -/
theorem not_le {c d : Char} (hc : 128 ≤ c.toNat) (hd : d.toNat < 128) : ¬ c.val ≤ d.val := by
  intro h
  have hle : c.toNat ≤ d.toNat := UInt32.le_iff_toNat_le.1 h
  omega

theorem isDigit : Uniform Char.isDigit false := by
  intro c hc
  show (decide ('0'.val ≤ c.val) && decide (c.val ≤ '9'.val)) = false
  rw [decide_eq_false (not_le hc (by decide)), Bool.and_false]

theorem isUpper : Uniform Char.isUpper false := by
  intro c hc
  exact decide_eq_false fun h => not_le hc (by decide) h.2

theorem isLower : Uniform Char.isLower false := by
  intro c hc
  show (decide ('a'.val ≤ c.val) && decide (c.val ≤ 'z'.val)) = false
  rw [decide_eq_false (not_le hc (by decide)), Bool.and_false]

theorem isAlpha : Uniform Char.isAlpha false := isUpper.or isLower

theorem isAlphanum : Uniform Char.isAlphanum false := isAlpha.or isDigit

/-- Characters beyond ASCII have no other small form. -/
theorem toLower (hp : Uniform p v) : Uniform (fun c => p c.toLower) v := by
  intro c hc
  have hsame : c.toLower = c := dif_neg fun h => not_le hc (by decide) h.2
  show p c.toLower = v
  rw [hsame, hp c hc]

end Uniform

/-- A uniform test holds on as many bytes at the start of a text as its characters take on which it
holds. -/
theorem length_takeWhile_byteChars {p : Char → Bool} {v : Bool} (hp : Uniform p v)
    (cs : List Char) :
    ((byteChars cs).takeWhile p).length = byteLength (cs.takeWhile p) := by
  induction cs with
  | nil => rfl
  | cons c cs ih =>
    rw [byteChars_cons]
    by_cases hc : c.toNat < 128
    · rw [byteChars_of_lt hc, List.singleton_append, List.takeWhile_cons, List.takeWhile_cons]
      split
      · rw [List.length_cons, ih, byteLength_cons, utf8Size_of_lt hc, Nat.add_comm]
      · rfl
    · have hc := Nat.not_lt.1 hc
      have hbytes : ∀ x ∈ byteChars [c], p x = v := fun x hx => hp x (le_of_mem_byteChars hc hx)
      cases v with
      | true =>
        rw [List.takeWhile_append_of_pos hbytes, List.length_append, ih, length_byteChars,
          List.takeWhile_cons_of_pos (hp c hc), byteLength_cons, byteLength_cons, byteLength_nil,
          Nat.add_zero]
      | false =>
        obtain ⟨x, xs, hsplit, -⟩ := exists_byteChars_eq_cons c
        have hx := hbytes x (hsplit ▸ List.mem_cons_self ..)
        rw [hsplit, List.cons_append, List.takeWhile_cons_of_neg (by simp [hx]),
          List.takeWhile_cons_of_neg (by simp [hp c hc])]
        rfl

end VerilogScaffold.Text
