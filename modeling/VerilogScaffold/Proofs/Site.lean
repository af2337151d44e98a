import VerilogScaffold.Proofs.Reading

/-!
# Places by the text at them

An offset says where a token stands only together with the source, and every offset moves when text
is put in front. A `Site` says it by the text itself: what stands from the place's start on, and
what stands behind the place. Text in front changes neither, and what a place says can be read off
it.

Extraction from an addressable source is the reading of its tokens at their sites: `outcome_eq`.
Facts about texts that are put together from others are proved on this side, where no offset occurs.
-/

namespace VerilogScaffold

/-- A place in a text: the text from its start on, and the text behind it. -/
structure Site where
  here : List Char
  after : List Char
  deriving DecidableEq

namespace Site

/-- What stands at a place. -/
def text (p : Site) : List Char := p.here.take (p.here.length - p.after.length)

/-- The smallest place that covers both. -/
def merge (p q : Site) : Site where
  here := if Text.byteLength q.here ≤ Text.byteLength p.here then p.here else q.here
  after := if Text.byteLength p.after ≤ Text.byteLength q.after then p.after else q.after

/-- The same place in a text that goes on with `more`. -/
def append (more : List Char) (p : Site) : Site := ⟨p.here ++ more, p.after ++ more⟩

/-- The same place by its offsets, in a text of `n` bytes. -/
def stretch (n : Nat) (p : Site) : Stretch :=
  ⟨n - Text.byteLength p.here, n - Text.byteLength p.after⟩

/-- A place of a text. -/
structure LiesOn (p : Site) (cs : List Char) : Prop where
  here : p.here <:+ cs
  after : p.after <:+ p.here

@[simp] theorem text_mk_append (text after : List Char) :
    (⟨text ++ after, after⟩ : Site).text = text := by
  rw [Site.text, List.length_append, Nat.add_sub_cancel, List.take_left]

theorem LiesOn.text_append_after {p : Site} {cs : List Char} (h : p.LiesOn cs) :
    p.text ++ p.after = p.here := by
  obtain ⟨text, hhere⟩ := h.after
  rw [Site.text, ← hhere, List.length_append, Nat.add_sub_cancel, List.take_left]

theorem byteLength_le_of_suffix {a b : List Char} (h : a <:+ b) :
    Text.byteLength a ≤ Text.byteLength b := by
  obtain ⟨front, rfl⟩ := h
  rw [Text.byteLength_append]
  exact Nat.le_add_left _ _

theorem LiesOn.merge {p q : Site} {cs : List Char} (hp : p.LiesOn cs) (hq : q.LiesOn cs) :
    (p.merge q).LiesOn cs := by
  -- of two suffixes of one text, the shorter is a suffix of the longer
  have hnested : ∀ {a b : List Char}, a <:+ cs → b <:+ cs →
      Text.byteLength a ≤ Text.byteLength b → a <:+ b := by
    intro a b ha hb hle
    rcases List.suffix_or_suffix_of_suffix ha hb with h | h
    · exact h
    · obtain ⟨front, rfl⟩ := h
      rw [Text.byteLength_append] at hle
      rw [Text.eq_nil_of_byteLength_eq_zero (by omega : Text.byteLength front = 0)]
      exact List.suffix_refl _
  have hpa := byteLength_le_of_suffix hp.after
  have hqa := byteLength_le_of_suffix hq.after
  have hhere : (p.merge q).here <:+ cs := by
    simp only [Site.merge]
    split
    · exact hp.here
    · exact hq.here
  have hafter : (p.merge q).after <:+ cs := by
    simp only [Site.merge]
    split
    · exact hp.after.trans hp.here
    · exact hq.after.trans hq.here
  refine ⟨hhere, hnested hafter hhere ?_⟩
  simp only [Site.merge]
  split <;> split <;> omega

/-- From a place to one that neither starts nor ends before it. -/
theorem merge_eq {p q : Site} (hhere : q.here <:+ p.here) (hafter : q.after <:+ p.after) :
    p.merge q = ⟨p.here, q.after⟩ := by
  rw [Site.merge, if_pos (byteLength_le_of_suffix hhere)]
  split
  · rename_i hle
    obtain ⟨front, hfront⟩ := hafter
    rw [← hfront, Text.byteLength_append] at hle
    rw [← hfront, Text.eq_nil_of_byteLength_eq_zero (by omega : Text.byteLength front = 0),
      List.nil_append]
  · rfl

theorem LiesOn.stretch {p : Site} {cs : List Char} (h : p.LiesOn cs) :
    (p.stretch (Text.byteLength cs)).LiesOn cs where
  start := by
    obtain ⟨front, rfl⟩ := h.here
    exact ⟨front, p.here, rfl, by rw [Text.byteLength_append, Site.stretch, Nat.add_sub_cancel]⟩
  stop := by
    obtain ⟨front, rfl⟩ := h.after.trans h.here
    exact ⟨front, p.after, rfl, by rw [Text.byteLength_append, Site.stretch, Nat.add_sub_cancel]⟩
  le := by
    have := byteLength_le_of_suffix h.after
    simp only [Site.stretch]
    omega

theorem LiesOn.merge_stretch {p q : Site} {cs : List Char} (hp : p.LiesOn cs) (hq : q.LiesOn cs) :
    (p.stretch (Text.byteLength cs)).merge (q.stretch (Text.byteLength cs)) =
      (p.merge q).stretch (Text.byteLength cs) := by
  have h1 := byteLength_le_of_suffix hp.here
  have h2 := byteLength_le_of_suffix hq.here
  simp only [Site.stretch, Stretch.merge, Site.merge, Stretch.mk.injEq]
  split <;> split <;> omega

/-- On an addressable source, a place's span says what stands at the place. -/
theorem LiesOn.text?_span {p : Site} {source : String} (h : p.LiesOn source.toList)
    (hsource : Addressable source) :
    (p.stretch (Text.byteLength source.toList)).span.text? source = some
    (String.ofList p.text) := by
  obtain ⟨front, hfront⟩ := h.here
  have htext := h.text_append_after
  have hlength := congrArg Text.byteLength hfront
  have hlength' := congrArg Text.byteLength htext
  rw [Text.byteLength_append] at hlength hlength'
  have hslice : Text.slice? (p.stretch (Text.byteLength source.toList)).start
      (p.stretch (Text.byteLength source.toList)).stop source.toList = some p.text := by
    refine Text.slice?_eq_some_iff.2 ⟨front, p.after, by rw [htext, hfront], ?_, ?_⟩
    · simp only [Site.stretch]
      omega
    · simp only [Site.stretch]
      omega
  rw [h.stretch.text?_span hsource, hslice, Option.map_some]

end Site

/-! ## Tokens at their sites -/

/-- The tokens of segments that stand in front of a text. -/
def Segment.lexemes (behind : List Char) : List Segment → List (Lexeme Site)
  | [] => []
  | s :: rest =>
    let after := rest.flatMap Segment.text ++ behind
    match s.kind.tokenKind? with
    | some kind => ⟨kind, ⟨s.text ++ after, after⟩⟩ :: lexemes behind rest
    | none => lexemes behind rest

/-- The tokens of a text, at their sites. -/
def lexemes (cs : List Char) : List (Lexeme Site) := Segment.lexemes [] (Segment.split cs)

/-- The tokens of a text without its subprogram blocks, at their sites. -/
def Stripped.read (cs : List Char) : Stripped Site := ofTokens (lexemes cs)

/-- The outline of a text, at sites. -/
def Outline.read (cs : List Char) : Except (ExtractError Site) (Outline Site) :=
  ofTokens (Stripped.read cs).tokens

namespace Segment

theorem lexemes_append (behind : List Char) (segments more : List Segment) :
    lexemes behind (segments ++ more) =
      lexemes (more.flatMap text ++ behind) segments ++ lexemes behind more := by
  induction segments with
  | nil => rfl
  | cons s rest ih =>
    rw [List.cons_append, lexemes, lexemes, ih, List.flatMap_append, List.append_assoc]
    split <;> rfl

/-- Tokens in front of more text. -/
theorem lexemes_append_behind (behind more : List Char) (segments : List Segment) :
    lexemes (behind ++ more) segments =
      (lexemes behind segments).map (Lexeme.map (Site.append more)) := by
  induction segments with
  | nil => rfl
  | cons s rest ih =>
    rw [lexemes, lexemes, ih]
    split
    · simp [Lexeme.map, Site.append]
    · rfl

theorem lexemes_eq (start : Nat) (segments : List Segment) :
    (eventsFrom start segments).filterMap Event.lexeme? =
      (lexemes [] segments).map
        (Lexeme.map (Site.stretch (start + Text.byteLength (segments.flatMap text)))) := by
  induction segments generalizing start with
  | nil => rfl
  | cons s rest ih =>
    have hend : start + s.byteLength + Text.byteLength (rest.flatMap text) =
        start + Text.byteLength ((s :: rest).flatMap text) := by
      rw [List.flatMap_cons, Text.byteLength_append, byteLength, Nat.add_assoc]
    have hplace : Site.stretch (start + Text.byteLength ((s :: rest).flatMap text))
        ⟨s.text ++ rest.flatMap text, rest.flatMap text⟩ = ⟨start, start + s.byteLength⟩ := by
      rw [← hend]
      simp only [Site.stretch, Text.byteLength_append, byteLength, Stretch.mk.injEq]
      omega
    have hrest := ih (start + s.byteLength)
    rw [hend] at hrest
    rw [eventsFrom, lexemes, List.append_nil]
    rcases s with ⟨_ | closed | _ | kind | fault, text⟩
    · exact hrest
    · cases closed
      · exact hrest
      · exact hrest
    · exact hrest
    · show Lexeme.mk kind ⟨start, start + _⟩ :: _ = Lexeme.mk kind (Site.stretch _ _) :: _
      rw [hplace]
      exact congrArg _ hrest
    · show Lexeme.mk .error ⟨start, start + _⟩ :: _ = Lexeme.mk .error (Site.stretch _ _) :: _
      rw [hplace]
      exact congrArg _ hrest

theorem liesOn_of_mem_lexemes {behind : List Char} {segments : List Segment} {t : Lexeme Site}
    (h : t ∈ lexemes behind segments) : t.place.LiesOn (segments.flatMap text ++ behind) := by
  induction segments with
  | nil => cases h
  | cons s rest ih =>
    have hrest : t ∈ lexemes behind rest → t.place.LiesOn ((s :: rest).flatMap text ++ behind) := by
      intro ht
      refine ⟨(ih ht).here.trans ⟨s.text, ?_⟩, (ih ht).after⟩
      rw [List.flatMap_cons, List.append_assoc]
    rw [lexemes] at h
    split at h
    · rcases List.mem_cons.1 h with rfl | h
      · exact ⟨⟨[], by rw [List.flatMap_cons, List.append_assoc, List.nil_append]⟩, ⟨s.text, rfl⟩⟩
      · exact hrest h
    · exact hrest h

theorem suffix_after_of_mem_lexemes {behind : List Char} {segments : List Segment} {t : Lexeme Site}
    (h : t ∈ lexemes behind segments) : behind <:+ t.place.after := by
  induction segments with
  | nil => cases h
  | cons s rest ih =>
    rw [lexemes] at h
    split at h
    · rcases List.mem_cons.1 h with rfl | h
      · exact List.suffix_append _ _
      · exact ih h
    · exact ih h

/-- A token of segments is one of them; the tokens on either side are those of the segments
there. -/
theorem exists_of_lexemes_eq {behind : List Char} {segments : List Segment}
    {before after : List (Lexeme Site)} {t : Lexeme Site}
    (h : lexemes behind segments = before ++ t :: after) :
    ∃ segments₁ s segments₂, segments = segments₁ ++ s :: segments₂ ∧
      s.kind.tokenKind? = some t.kind ∧
      t.place = ⟨s.text ++ (segments₂.flatMap text ++ behind), segments₂.flatMap text ++ behind⟩ ∧
      lexemes (s.text ++ (segments₂.flatMap text ++ behind)) segments₁ = before ∧
      lexemes behind segments₂ = after := by
  induction segments generalizing before with
  | nil => simp [lexemes] at h
  | cons s rest ih =>
    rw [lexemes] at h
    split at h
    · rename_i kind hkind
      rcases before with _ | ⟨u, before⟩
      · obtain ⟨rfl, hrest⟩ := List.cons.inj h
        exact ⟨[], s, rest, rfl, hkind, rfl, rfl, hrest⟩
      · obtain ⟨rfl, hrest⟩ := List.cons.inj h
        obtain ⟨segments₁, v, segments₂, rfl, hv, hplace, hbefore, hafter⟩ := ih hrest
        refine ⟨s :: segments₁, v, segments₂, rfl, hv, hplace, ?_, hafter⟩
        rw [lexemes, hkind, hbefore]
        simp
    · rename_i hkind
      obtain ⟨segments₁, v, segments₂, rfl, hv, hplace, hbefore, hafter⟩ := ih h
      refine ⟨s :: segments₁, v, segments₂, rfl, hv, hplace, ?_, hafter⟩
      rw [lexemes, hkind, hbefore]

end Segment

/-- A token of a text is one of its segments. -/
theorem exists_segment_of_mem_lexemes {cs : List Char} {t : Lexeme Site} (h : t ∈ lexemes cs) :
    ∃ s ∈ Segment.split cs, s.kind.tokenKind? = some t.kind := by
  obtain ⟨before, after, hmem⟩ := List.append_of_mem h
  obtain ⟨segments₁, s, segments₂, hsplit, hkind, -⟩ := Segment.exists_of_lexemes_eq hmem
  exact ⟨s, by rw [hsplit]; simp, hkind⟩

/-- The tokens of a text by their offsets. -/
theorem lexemesFrom_zero (cs : List Char) :
    lexemesFrom 0 cs = (lexemes cs).map (Lexeme.map (Site.stretch (Text.byteLength cs))) := by
  rw [lexemesFrom, eventsFrom, Segment.lexemes_eq, Segment.flatMap_text_split,
    Nat.zero_add, lexemes]

theorem liesOn_of_mem_lexemes {cs : List Char} {t : Lexeme Site} (h : t ∈ lexemes cs) :
    t.place.LiesOn cs := by
  have := Segment.liesOn_of_mem_lexemes h
  rwa [Segment.flatMap_text_split, List.append_nil] at this

theorem Outline.ofText_eq (cs : List Char) :
    ofText cs = ((read cs).map (Outline.map (Site.stretch (Text.byteLength cs)))).mapError
      (ExtractError.map (Site.stretch (Text.byteLength cs))) := by
  rw [ofText, Stripped.ofText, lexemesFrom_zero, Stripped.ofTokens_map, Stripped.map, ofTokens_map]
  rfl

/-! ## What extraction makes of a source -/

/-- The text of a run of tokens. -/
def Extent.text (e : Extent Site) : List Char := (e.first.place.merge e.last.place).text

namespace Signature

/-- The parameter that a name and the extent of a value stand for. -/
def parameterOf (p : Lexeme Site × Extent Site) : Parameter :=
  ⟨String.ofList p.1.place.text, String.ofList p.2.text⟩

/-- The port that a name and a range stand for. -/
def portOf (p : Lexeme Site × Option (Extent Site)) : Port :=
  ⟨String.ofList p.1.place.text, String.ofList ((p.2.map Extent.text).getD [])⟩

/-- What an outline says, as its sites do. -/
def ofSites (o : Outline Site) : Signature where
  name := String.ofList o.name.place.text
  parameters := (o.findings.filterMap Finding.parameter?).map parameterOf
  inputs := (o.findings.filterMap (Finding.port? .input)).map portOf
  outputs := (o.findings.filterMap (Finding.port? .output)).map portOf
  inouts := (o.findings.filterMap (Finding.port? .inout)).map portOf

theorem ports_ofSites (o : Outline Site) (d : Direction) :
    (ofSites o).ports d = (o.findings.filterMap (Finding.port? d)).map portOf := by
  cases d <;> rfl

theorem exists_of_mem_parameters {o : Outline Site} {p : Parameter}
    (hp : p ∈ (ofSites o).parameters) :
    ∃ name value, .parameter name value ∈ o.findings ∧ p = parameterOf (name, value) := by
  obtain ⟨⟨name, value⟩, hn, rfl⟩ := List.mem_map.1 hp
  exact ⟨name, value, Finding.mem_filterMap_parameter?.1 hn, rfl⟩

theorem exists_of_mem_ports {o : Outline Site} {d : Direction} {p : Port}
    (hp : p ∈ (ofSites o).ports d) :
    ∃ name range, .port d name range ∈ o.findings ∧ p = portOf (name, range) := by
  rw [ports_ofSites] at hp
  obtain ⟨⟨name, range⟩, hn, rfl⟩ := List.mem_map.1 hp
  exact ⟨name, range, Finding.mem_filterMap_port?.1 hn, rfl⟩

theorem mapM_eq_some_map {A B C : Type} {f : B → Option C} {g : A → B} {k : A → C} {xs : List A}
    (h : ∀ x ∈ xs, f (g x) = some (k x)) : (xs.map g).mapM f = some (xs.map k) := by
  induction xs with
  | nil => rfl
  | cons x xs ih =>
    rw [List.map_cons, List.mapM_cons, h x (List.mem_cons_self ..),
      ih fun y hy => h y (List.mem_cons_of_mem _ hy)]
    rfl

end Signature

theorem Finding.filterMap_parameter?_map {P Q : Type} (f : P → Q) (xs : List (Finding P)) :
    (xs.map (Finding.map f)).filterMap parameter? =
      (xs.filterMap parameter?).map fun p => (p.1.map f, p.2.map f) := by
  rw [List.filterMap_map, List.map_filterMap]
  congr 1
  funext x
  cases x <;> rfl

theorem Finding.filterMap_port?_map {P Q : Type} (f : P → Q) (d : Direction)
    (xs : List (Finding P)) :
    (xs.map (Finding.map f)).filterMap (port? d) =
      (xs.filterMap (port? d)).map fun p => (p.1.map f, p.2.map (Extent.map f)) := by
  rw [List.filterMap_map, List.map_filterMap]
  congr 1
  funext x
  rcases x with _ | ⟨d', name, range⟩ | _
  · rfl
  · by_cases hd : d' = d <;> simp [Finding.map, port?, hd]
  · rfl

namespace Extraction

variable {source : String}

/-- The text of a run of tokens is looked up at the span of the run. -/
theorem text?_span_map (ha : Addressable source) {e : Extent Site}
    (he : e.Forall (·.LiesOn source.toList)) :
    ((e.map fun p => (p.stretch (Text.byteLength source.toList)).span).span).text? source =
      some (String.ofList e.text) := by
  have hfirst := he.1.stretch
  have hlast := he.2.stretch
  show (Span.merge _ _).text? source = _
  rw [Extent.map, Lexeme.span, Lexeme.span, Lexeme.map, Lexeme.map, hfirst.merge_span hlast ha,
    he.1.merge_stretch he.2, (he.1.merge he.2).text?_span ha, Extent.text]

/-- An outline's lookups in an addressable source find what its sites say. -/
theorem ofOutline?_map_site (ha : Addressable source) {o : Outline Site}
    (ho : o.Forall (·.LiesOn source.toList)) {s : Signature}
    (hs : Signature.ofOutline? source
      (o.map fun p => (p.stretch (Text.byteLength source.toList)).span) = some s) :
    s = Signature.ofSites o := by
  obtain ⟨name, hname, hs⟩ := Option.bind_eq_some_iff.1 hs
  obtain ⟨hsname, hparameters, hports⟩ := Signature.eq_of_consFindings? hs
  have hname' : s.name = (Signature.ofSites o).name := by
    rw [hsname]
    exact Option.some.inj (hname.symm.trans (ho.1.text?_span ha))
  have hparameters' : s.parameters = (Signature.ofSites o).parameters := by
    rw [Outline.map, Finding.filterMap_parameter?_map,
      Signature.mapM_eq_some_map (k := Signature.parameterOf)] at hparameters
    · exact (Option.some.inj hparameters).symm
    · intro p hp
      obtain ⟨hn, hvalue⟩ := ho.2 _ (Finding.mem_filterMap_parameter?.1 hp)
      rw [Signature.parameterAt?, text?_span_map ha hvalue]
      show (Span.text? _ source).bind _ = _
      rw [Lexeme.span, Lexeme.map, hn.text?_span ha]
      rfl
  have hports' : ∀ d, s.ports d = (Signature.ofSites o).ports d := by
    intro d
    have hd := hports d
    rw [Outline.map, Finding.filterMap_port?_map,
      Signature.mapM_eq_some_map (k := Signature.portOf)] at hd
    · rw [Signature.ports_ofSites]
      exact (Option.some.inj hd).symm
    · rintro ⟨n, range⟩ hp
      obtain ⟨hn, hrange⟩ := ho.2 _ (Finding.mem_filterMap_port?.1 hp)
      rw [Signature.portAt?]
      show (Span.text? _ source).bind _ = _
      rw [Lexeme.span, Lexeme.map, hn.text?_span ha]
      rcases range with _ | e
      · rfl
      · simp only [Signature.rangeText?, Option.map_some, text?_span_map ha (hrange e rfl)]
        rfl
  obtain ⟨name', parameters, inputs, outputs, inouts⟩ := s
  exact Signature.mk.injEq .. ▸
    ⟨hname', hparameters', hports' .input, hports' .output, hports' .inout⟩

/-- What an outline holds lies on the text. -/
theorem liesOn_of_read {cs : List Char} {o : Outline Site} (ho : Outline.read cs = .ok o) :
    o.Forall (·.LiesOn cs) := by
  have hmem : ∀ t ∈ (Stripped.read cs).tokens, t.place.LiesOn cs := fun t ht =>
    liesOn_of_mem_lexemes ((Stripped.tokens_sublist (lexemes cs)).subset ht)
  exact Outline.ofTokens_forall hmem ho

/-- **Extraction reads a text at its sites.** -/
theorem outcome_eq (ha : Addressable source) {x : Extraction} (hx : ofSource? source = some x) :
    x.outcome = ((Outline.read source.toList).map Signature.ofSites).mapError
      (ExtractError.map fun _ => ()) := by
  rcases ho : Outline.read source.toList with e | o
  · have htext : Outline.ofText source.toList =
        .error (e.map (Site.stretch (Text.byteLength source.toList))) := by
      rw [Outline.ofText_eq, ho]
      rfl
    rw [ofSource?_of_error htext] at hx
    obtain rfl := Option.some.inj hx
    show Except.error (((e.map _).map _).map _) = Except.error _
    rw [ExtractError.map_map, ExtractError.map_map]
  · have htext : Outline.ofText source.toList =
        .ok (o.map (Site.stretch (Text.byteLength source.toList))) := by
      rw [Outline.ofText_eq, ho]
      rfl
    obtain ⟨s, hs, hresult⟩ := ofOutline?_of_ofSource? hx htext
    rw [Outline.map_map] at hs
    rw [outcome, hresult, ofOutline?_map_site ha (liesOn_of_read ho) hs]
    rfl

/-- A signature is what the outline of its source says. -/
theorem exists_read_of_result (ha : Addressable source) {x : Extraction}
    (hx : ofSource? source = some x) {s : Signature} (hs : x.result = .ok s) :
    ∃ o, Outline.read source.toList = .ok o ∧ s = Signature.ofSites o := by
  have h := outcome_eq ha hx
  rw [outcome, hs] at h
  rcases ho : Outline.read source.toList with e | o
  · rw [ho] at h
    cases h
  · rw [ho] at h
    exact ⟨o, rfl, Except.ok.inj h⟩

/-- What the outline of a source says is its signature. -/
theorem result_of_read (ha : Addressable source) {x : Extraction} (hx : ofSource? source = some x)
    {o : Outline Site} (ho : Outline.read source.toList = .ok o) :
    x.result = .ok (Signature.ofSites o) := by
  have h := outcome_eq ha hx
  rw [outcome, ho] at h
  rcases hresult : x.result with e | s
  · rw [hresult] at h
    cases h
  · rw [hresult] at h
    exact congrArg _ (Except.ok.inj h)

end Extraction

end VerilogScaffold
