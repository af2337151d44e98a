import VerilogScaffold.Proofs.Boundary
import VerilogScaffold.Signature.Extraction

/-!
# Exact places

A span stores offsets in 32-bit words, so the span of a place is exact only while the source is
shorter than `2 ^ 32` bytes. Reasoning about places is done with `Stretch`, whose offsets are
natural numbers; `Stretch.span` stores one. On an addressable source nothing is lost: a span's text
is the slice between the exact offsets (`LiesOn.text?_span`), and the span of a run of tokens is the
span of the stretch from the first to the last (`LiesOn.merge_span`).
-/

namespace VerilogScaffold

/-- A source whose byte offsets fit the words of a span. -/
def Addressable (source : String) : Prop := source.utf8ByteSize < UInt32.size

instance (source : String) : Decidable (Addressable source) := inferInstanceAs (Decidable (_ < _))

/-- A stretch of source text, from byte `start` up to but not including byte `stop`, exactly. -/
structure Stretch where
  start : Nat
  stop : Nat
  deriving DecidableEq

namespace Stretch

/-- The span of a stretch. -/
def span (p : Stretch) : Span := .ofOffsets p.start p.stop

/-- The same stretch of a text that has `n` more bytes in front. -/
def shift (n : Nat) (p : Stretch) : Stretch := ⟨p.start + n, p.stop + n⟩

/-- The smallest stretch that covers both. -/
def merge (p q : Stretch) : Stretch := ⟨min p.start q.start, max p.stop q.stop⟩

/-- A stretch between two boundaries of a text. -/
structure LiesOn (p : Stretch) (cs : List Char) : Prop where
  start : Text.IsBoundary p.start cs
  stop : Text.IsBoundary p.stop cs
  le : p.start ≤ p.stop

theorem LiesOn.merge {p q : Stretch} {cs : List Char} (hp : p.LiesOn cs) (hq : q.LiesOn cs) :
    (p.merge q).LiesOn cs where
  start := by
    rcases Nat.le_total p.start q.start with h | h
    · simpa [Stretch.merge, Nat.min_eq_left h] using hp.start
    · simpa [Stretch.merge, Nat.min_eq_right h] using hq.start
  stop := by
    rcases Nat.le_total p.stop q.stop with h | h
    · simpa [Stretch.merge, Nat.max_eq_right h] using hq.stop
    · simpa [Stretch.merge, Nat.max_eq_left h] using hp.stop
  le := by
    have h1 := hp.le
    have h2 := hq.le
    simp only [Stretch.merge]
    omega

theorem LiesOn.append {p : Stretch} {cs : List Char} (h : p.LiesOn cs) (more : List Char) :
    p.LiesOn (cs ++ more) where
  start := by
    obtain ⟨before, after, rfl, hlength⟩ := h.start
    exact ⟨before, after ++ more, by simp, hlength⟩
  stop := by
    obtain ⟨before, after, rfl, hlength⟩ := h.stop
    exact ⟨before, after ++ more, by simp, hlength⟩
  le := h.le

theorem LiesOn.shift {p : Stretch} {cs : List Char} (h : p.LiesOn cs) (before : List Char) :
    (p.shift (Text.byteLength before)).LiesOn (before ++ cs) where
  start := by
    obtain ⟨front, after, rfl, hlength⟩ := h.start
    exact ⟨before ++ front, after, by simp, by
      rw [Text.byteLength_append, hlength, Stretch.shift, Nat.add_comm]⟩
  stop := by
    obtain ⟨front, after, rfl, hlength⟩ := h.stop
    exact ⟨before ++ front, after, by simp, by
      rw [Text.byteLength_append, hlength, Stretch.shift, Nat.add_comm]⟩
  le := by
    have := h.le
    simp only [Stretch.shift]
    omega

theorem shift_shift (m n : Nat) (p : Stretch) : (p.shift m).shift n = p.shift (m + n) := by
  simp only [shift, Nat.add_assoc]

theorem merge_shift (n : Nat) (p q : Stretch) :
    (p.shift n).merge (q.shift n) = (p.merge q).shift n := by
  simp only [merge, shift, Stretch.mk.injEq]
  omega

/-! ## Spans of stretches -/

theorem toNat_ofNat_of_le {source : String} (hsource : Addressable source) {n : Nat}
    (h : n ≤ Text.byteLength source.toList) : (UInt32.ofNat n).toNat = n := by
  rw [Text.byteLength_toList] at h
  exact UInt32.toNat_ofNat_of_lt (Nat.lt_of_le_of_lt h hsource)

theorem LiesOn.toNat_start {p : Stretch} {source : String} (h : p.LiesOn source.toList)
    (hsource : Addressable source) : p.span.start.toNat = p.start :=
  toNat_ofNat_of_le hsource h.start.le

theorem LiesOn.toNat_stop {p : Stretch} {source : String} (h : p.LiesOn source.toList)
    (hsource : Addressable source) : p.span.stop.toNat = p.stop :=
  toNat_ofNat_of_le hsource h.stop.le

/-- The text of a span is the slice between the exact offsets. -/
theorem LiesOn.text?_span {p : Stretch} {source : String} (h : p.LiesOn source.toList)
    (hsource : Addressable source) :
    p.span.text? source = (Text.slice? p.start p.stop source.toList).map String.ofList := by
  rw [Span.text?, h.toNat_start hsource, h.toNat_stop hsource]

theorem LiesOn.exists_text? {p : Stretch} {source : String} (h : p.LiesOn source.toList)
    (hsource : Addressable source) : ∃ text, p.span.text? source = some text := by
  obtain ⟨middle, hmiddle⟩ := Text.exists_slice? h.start h.stop h.le
  exact ⟨String.ofList middle, by rw [h.text?_span hsource, hmiddle]; rfl⟩

private theorem toNat_min (a b : UInt32) : (min a b).toNat = min a.toNat b.toNat := by
  show (if a ≤ b then a else b).toNat = _
  split
  · exact (Nat.min_eq_left (UInt32.le_iff_toNat_le.1 ‹_›)).symm
  · exact (Nat.min_eq_right (Nat.le_of_not_le (mt UInt32.le_iff_toNat_le.2 ‹_›))).symm

private theorem toNat_max (a b : UInt32) : (max a b).toNat = max a.toNat b.toNat := by
  show (if a ≤ b then b else a).toNat = _
  split
  · exact (Nat.max_eq_right (UInt32.le_iff_toNat_le.1 ‹_›)).symm
  · exact (Nat.max_eq_left (Nat.le_of_not_le (mt UInt32.le_iff_toNat_le.2 ‹_›))).symm

/-- Spans merge as the stretches do. -/
theorem LiesOn.merge_span {p q : Stretch} {source : String} (hp : p.LiesOn source.toList)
    (hq : q.LiesOn source.toList) (hsource : Addressable source) :
    p.span.merge q.span = (p.merge q).span := by
  have h := hp.merge hq
  have hstart : (p.span.merge q.span).start = (p.merge q).span.start := by
    apply UInt32.toNat_inj.1
    rw [h.toNat_start hsource, Span.merge, toNat_min, hp.toNat_start hsource,
      hq.toNat_start hsource]
    rfl
  have hstop : (p.span.merge q.span).stop = (p.merge q).span.stop := by
    apply UInt32.toNat_inj.1
    rw [h.toNat_stop hsource, Span.merge, toNat_max, hp.toNat_stop hsource, hq.toNat_stop hsource]
    rfl
  rcases hm : p.span.merge q.span with ⟨a, b⟩
  rw [hm] at hstart hstop
  simp only at hstart hstop
  rw [hstart, hstop]

/-- Between two places of the first part of a source stands what stands there in the part. -/
theorem LiesOn.text?_append {p q : Stretch} {cs : List Char} (hp : p.LiesOn cs) (hq : q.LiesOn cs)
    {source : String} {more : List Char} (htext : source.toList = cs ++ more)
    (hsource : Addressable source) :
    (p.span.merge q.span).text? source =
      (Text.slice? (p.merge q).start (p.merge q).stop cs).map String.ofList := by
  have hp' : p.LiesOn source.toList := htext ▸ hp.append more
  have hq' : q.LiesOn source.toList := htext ▸ hq.append more
  have h := hp.merge hq
  rw [hp'.merge_span hq' hsource, (hp'.merge hq').text?_span hsource, htext,
    Text.slice?_append_left h.start h.stop h.le]

/-- Between two places of the last part of a source stands what stands there in the part. -/
theorem LiesOn.text?_shift {p q : Stretch} {cs : List Char} (hp : p.LiesOn cs) (hq : q.LiesOn cs)
    {source : String} {before : List Char} (htext : source.toList = before ++ cs)
    (hsource : Addressable source) :
    ((p.shift (Text.byteLength before)).span.merge (q.shift (Text.byteLength before)).span).text?
    source = (Text.slice? (p.merge q).start (p.merge q).stop cs).map String.ofList := by
  have hp' : (p.shift (Text.byteLength before)).LiesOn source.toList := htext ▸ hp.shift before
  have hq' : (q.shift (Text.byteLength before)).LiesOn source.toList := htext ▸ hq.shift before
  rw [hp'.merge_span hq' hsource, (hp'.merge hq').text?_span hsource, merge_shift, htext]
  exact congrArg _ (Text.slice?_append_right before _ _ cs)

end Stretch

end VerilogScaffold
