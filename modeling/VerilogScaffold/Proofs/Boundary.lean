import VerilogScaffold.Source.Span

/-!
# Character boundaries

A byte offset is a boundary of a text if no character lies across it. `slice?_eq_some_iff` says that
a slice is exactly the text between two boundaries; the other laws are read off it: a slice exists
between any two boundaries in order, text behind a slice does not change it, and text put in front
moves it.
-/

namespace VerilogScaffold.Text

/-! ## Bytes of a string -/

theorem byteLength_eq_utf8ByteSize (cs : List Char) :
    byteLength cs = (String.ofList cs).utf8ByteSize := by
  induction cs with
  | nil => rfl
  | cons c cs ih =>
    rw [← List.singleton_append, String.ofList_append, String.utf8ByteSize_append, ← ih]
    simp [byteLength]

@[simp] theorem byteLength_toList (s : String) : byteLength s.toList = s.utf8ByteSize := by
  rw [byteLength_eq_utf8ByteSize, String.ofList_toList]

@[simp] theorem byteLength_nil : byteLength [] = 0 := rfl

@[simp] theorem byteLength_cons (c : Char) (cs : List Char) :
    byteLength (c :: cs) = c.utf8Size + byteLength cs := rfl

theorem byteLength_pos {cs : List Char} (h : cs ≠ []) : 0 < byteLength cs := by
  rcases cs with _ | ⟨c, cs⟩
  · exact absurd rfl h
  · have := c.utf8Size_pos
    rw [byteLength_cons]
    omega

/-- Only the empty text takes no bytes. -/
theorem eq_nil_of_byteLength_eq_zero {cs : List Char} (h : byteLength cs = 0) : cs = [] := by
  rcases cs with _ | ⟨c, cs⟩
  · rfl
  · have := byteLength_pos (List.cons_ne_nil c cs)
    omega

/-! ## Cuts -/

theorem dropBytes?_eq_some_iff {n : Nat} {cs after : List Char} :
    dropBytes? n cs = some after ↔ ∃ before, cs = before ++ after ∧ byteLength before = n := by
  constructor
  · intro h
    fun_induction dropBytes? n cs with
    | case1 cs => exact ⟨[], by simpa using h, rfl⟩
    | case2 => simp at h
    | case3 n c cs hfits ih =>
      obtain ⟨before, rfl, hlength⟩ := ih h
      exact ⟨c :: before, rfl, by rw [byteLength_cons]; omega⟩
    | case4 => simp at h
  · rintro ⟨before, rfl, rfl⟩
    exact dropBytes?_append before after

theorem takeBytes?_eq_some_iff {n : Nat} {cs before : List Char} :
    takeBytes? n cs = some before ↔ ∃ after, cs = before ++ after ∧ byteLength before = n := by
  constructor
  · intro h
    fun_induction takeBytes? n cs generalizing before with
    | case1 cs => exact ⟨cs, by simp_all, by simp_all⟩
    | case2 => simp at h
    | case3 n c cs hfits ih =>
      obtain ⟨tail, htail, rfl⟩ := Option.map_eq_some_iff.1 h
      obtain ⟨after, rfl, hlength⟩ := ih htail
      exact ⟨after, rfl, by rw [byteLength_cons]; omega⟩
    | case4 => simp at h
  · rintro ⟨after, rfl, rfl⟩
    exact takeBytes?_append before after

/-- A slice is the text between two cuts. -/
theorem slice?_eq_some_iff {start stop : Nat} {cs middle : List Char} :
    slice? start stop cs = some middle ↔
      ∃ before after, cs = before ++ (middle ++ after) ∧ byteLength before = start ∧
        byteLength before + byteLength middle = stop := by
  constructor
  · intro h
    rw [slice?] at h
    split at h
    · rename_i hle
      obtain ⟨rest, hrest, hmiddle⟩ := Option.bind_eq_some_iff.1 h
      obtain ⟨before, rfl, hbefore⟩ := dropBytes?_eq_some_iff.1 hrest
      obtain ⟨after, rfl, hlength⟩ := takeBytes?_eq_some_iff.1 hmiddle
      exact ⟨before, after, rfl, hbefore, by omega⟩
    · simp at h
  · rintro ⟨before, after, rfl, rfl, rfl⟩
    exact slice?_append before middle after

/-! ## Boundaries -/

/-- A byte offset at which a text can be cut in two. -/
def IsBoundary (n : Nat) (cs : List Char) : Prop :=
  ∃ before after, cs = before ++ after ∧ byteLength before = n

theorem IsBoundary.le {n : Nat} {cs : List Char} (h : IsBoundary n cs) : n ≤ byteLength cs := by
  obtain ⟨before, after, rfl, rfl⟩ := h
  rw [byteLength_append]
  omega

/-- The text between two boundaries can be cut out. -/
theorem exists_slice? {start stop : Nat} {cs : List Char} (hstart : IsBoundary start cs)
    (hstop : IsBoundary stop cs) (hle : start ≤ stop) :
    ∃ middle, slice? start stop cs = some middle := by
  obtain ⟨before, rest, rfl, rfl⟩ := hstart
  obtain ⟨upto, after, hcut, rfl⟩ := hstop
  -- the longer of the two prefixes extends the shorter
  rcases List.append_eq_append_iff.1 hcut with ⟨middle, rfl, rfl⟩ | ⟨extra, rfl, rfl⟩
  · exact ⟨middle, slice?_eq_some_iff.2 ⟨before, after, rfl, rfl, by rw [byteLength_append]⟩⟩
  · rw [byteLength_append] at hle
    obtain rfl : extra = [] := eq_nil_of_byteLength_eq_zero (by omega)
    exact ⟨[], slice?_eq_some_iff.2 ⟨upto, rest, by simp, by simp, by simp⟩⟩

/-- Text behind a slice does not matter. -/
theorem slice?_append_of_eq_some {start stop : Nat} {cs middle : List Char}
    (h : slice? start stop cs = some middle) (more : List Char) :
    slice? start stop (cs ++ more) = some middle := by
  obtain ⟨before, after, rfl, hstart, hstop⟩ := slice?_eq_some_iff.1 h
  exact slice?_eq_some_iff.2 ⟨before, after ++ more, by simp, hstart, hstop⟩

/-- A slice that ends within a text is the same whatever follows the text. -/
theorem slice?_append_left {start stop : Nat} {cs : List Char} (hstart : IsBoundary start cs)
    (hstop : IsBoundary stop cs) (hle : start ≤ stop) (more : List Char) :
    slice? start stop (cs ++ more) = slice? start stop cs := by
  obtain ⟨middle, hmiddle⟩ := exists_slice? hstart hstop hle
  rw [hmiddle, slice?_append_of_eq_some hmiddle]

/-- Text in front of a slice moves it. -/
theorem slice?_append_right (before : List Char) (start stop : Nat) (cs : List Char) :
    slice? (start + byteLength before) (stop + byteLength before) (before ++ cs) =
      slice? start stop cs := by
  ext middle
  rw [slice?_eq_some_iff, slice?_eq_some_iff]
  constructor
  · rintro ⟨front, after, hcut, hstart, hstop⟩
    rcases List.append_eq_append_iff.1 hcut with ⟨gap, rfl, rfl⟩ | ⟨extra, rfl, hcs⟩
    · rw [byteLength_append] at hstart hstop
      exact ⟨gap, after, rfl, by omega, by omega⟩
    · rw [byteLength_append] at hstart hstop
      obtain rfl : extra = [] := eq_nil_of_byteLength_eq_zero (by omega)
      rw [byteLength_nil] at hstart hstop
      exact ⟨[], after, by simpa using hcs.symm, by rw [byteLength_nil]; omega,
        by rw [byteLength_nil]; omega⟩
  · rintro ⟨gap, after, rfl, rfl, rfl⟩
    exact ⟨before ++ gap, after, by simp, by rw [byteLength_append]; omega,
      by rw [byteLength_append]; omega⟩

end VerilogScaffold.Text
