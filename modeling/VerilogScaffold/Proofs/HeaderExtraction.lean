import Mathlib
import VerilogScaffold.Proofs.HeaderReading
import VerilogScaffold.Proofs.Reading

/-!
# Headers are extracted whole

A source that starts with a header, and has no task and no function, has a signature: the name of
the header, every parameter it declares with the text of its value, and every port of each direction
with the text of its range, all in the order in which they stand (`ofSource?_of_header`). No port is
lost, none is taken twice, and none gets the range of its neighbour.

The outline of such a source is that of the header (`Header.ofTokens_append`). What is left to say
is which texts its tokens stand for: a value or a range is the slice from the start of its first
token to the end of its last, as tokens stand in the order of their places. Spans hold 32-bit words,
so this is for sources whose offsets fit them (`Addressable`): past that the spans of tokens no
longer stand in order.
-/

namespace VerilogScaffold

/-! ## What findings declare -/

namespace Header

variable {Place : Type}

theorem PortItem.filterMap_parameter? (direction : Direction) (range : Option (Extent Place))
    (i : PortItem Place) : (i.findings direction range).filterMap Finding.parameter? = [] := by
  rcases i with ⟨name, dimensions, _ | default⟩ <;> rfl

theorem PortItem.filterMap_port? (d direction : Direction) (range : Option (Extent Place))
    (i : PortItem Place) :
    (i.findings direction range).filterMap (Finding.port? d) =
      if direction = d then [(i.name.1, range)] else [] := by
  rcases i with ⟨name, dimensions, _ | default⟩ <;> by_cases hd : direction = d <;>
    simp [findings, Outline.portFindings, Finding.port?, hd, List.filterMap_cons]

theorem Clause.filterMap_parameter? (c : Clause Place) :
    c.findings.filterMap Finding.parameter? = c.parameters := by
  cases c with
  | parameter c =>
    rw [findings, ParameterClause.findings, List.filterMap_map, parameters, ParameterClause.entries,
      ← List.filterMap_eq_map]
    rfl
  | port c =>
    rw [findings, PortClause.findings, List.filterMap_flatMap, parameters]
    simp [PortItem.filterMap_parameter?]

theorem Clause.filterMap_port? (d : Direction) (c : Clause Place) :
    c.findings.filterMap (Finding.port? d) = c.ports d := by
  cases c with
  | parameter c =>
    rw [findings, ParameterClause.findings, List.filterMap_map, ports]
    simp [Finding.port?, Function.comp_def]
  | port c =>
    rw [findings, PortClause.findings, List.filterMap_flatMap, ports]
    by_cases hd : c.direction = d
    · simp only [PortItem.filterMap_port?, hd, if_true, PortClause.entries]
      exact List.map_eq_flatMap.symm
    · simp [PortItem.filterMap_port?, hd]

theorem filterMap_parameter? (h : Header Place) :
    (h.clauses.flatMap Clause.findings).filterMap Finding.parameter? = h.parameters := by
  rw [List.filterMap_flatMap, parameters]
  exact congrArg (h.clauses.flatMap ·) (funext Clause.filterMap_parameter?)

theorem filterMap_port? (h : Header Place) (d : Direction) :
    (h.clauses.flatMap Clause.findings).filterMap (Finding.port? d) = h.ports d := by
  rw [List.filterMap_flatMap, ports]
  exact congrArg (h.clauses.flatMap ·) (funext (Clause.filterMap_port? d))

end Header

/-! ## Tokens stand in order -/

/-- One token starts no later than another, and ends no later. -/
def Precedes (t u : Token) : Prop := t.span.start ≤ u.span.start ∧ t.span.stop ≤ u.span.stop

/-- The tokens of an addressable source stand in the order of their places. -/
theorem Lexing.tokens_pairwise {source : String} (ha : Addressable source) :
    (Lexing.ofSource source).tokens.Pairwise Precedes := by
  have hlies : ∀ t ∈ lexemesFrom 0 source.toList, t.place.LiesOn source.toList ∧
      t.place.start < t.place.stop := fun t ht => liesOn_of_mem_lexemesFrom ht
  have hend : Stretch.LiesOn ⟨source.utf8ByteSize, source.utf8ByteSize⟩ source.toList := by
    have hboundary : Text.IsBoundary source.utf8ByteSize source.toList :=
      ⟨source.toList, [], by simp, by simp⟩
    exact ⟨hboundary, hboundary, Nat.le_refl _⟩
  have hprecedes : ∀ {p q : Stretch}, p.LiesOn source.toList → q.LiesOn source.toList →
      p.start ≤ q.start → p.stop ≤ q.stop → ∀ kind kind',
      Precedes ⟨kind, p.span⟩ ⟨kind', q.span⟩ := by
    intro p q hp hq hstart hstop kind kind'
    rw [Precedes, UInt32.le_iff_toNat_le, UInt32.le_iff_toNat_le]
    simp only [hp.toNat_start ha, hq.toNat_start ha, hp.toNat_stop ha, hq.toNat_stop ha]
    exact ⟨hstart, hstop⟩
  -- the token for the end of the source stands behind all others
  rw [tokens_ofSource, List.pairwise_append, List.pairwise_map]
  refine ⟨?_, List.pairwise_singleton _ _, fun t ht u hu => ?_⟩
  · refine (lexemes_pairwise 0 source.toList).imp_of_mem fun {t u} ht hu hle => ?_
    have h1 := (hlies t ht).2
    have h2 := (hlies u hu).2
    exact hprecedes (hlies t ht).1 (hlies u hu).1 (by omega) (by omega) t.kind u.kind
  · obtain ⟨v, hv, rfl⟩ := List.mem_map.1 ht
    obtain rfl := List.mem_singleton.1 hu
    have hstart := (hlies v hv).1.start.le
    have hstop := (hlies v hv).1.stop.le
    rw [Text.byteLength_toList] at hstart hstop
    exact hprecedes (hlies v hv).1 hend hstart hstop v.kind .eof

namespace Extent

variable {Place : Type}

/-- The source from the start of the first token of a run to the end of its last. -/
def reach (e : Extent Span) : Span := ⟨e.first.span.start, e.last.span.stop⟩

/-- Whether the ends of a run stand among some tokens, one after the other. -/
def InOrder (e : Extent Place) (ts : List (Lexeme Place)) : Prop :=
  e.first = e.last ∨ [e.first, e.last].Sublist ts

theorem InOrder.mono {e : Extent Place} {ts us : List (Lexeme Place)} (h : e.InOrder ts)
    (hsublist : ts.Sublist us) : e.InOrder us :=
  h.imp_right fun h => h.trans hsublist

/-- The span of a run of tokens in order is a slice. -/
theorem span_eq_reach {e : Extent Span} {ts : List Token} (hts : ts.Pairwise Precedes)
    (h : e.InOrder ts) : e.span = e.reach := by
  rcases h with heq | hsublist
  · rw [span, reach, heq, Span.merge_self]
  · have hprecedes : Precedes e.first e.last := by
      have := hts.sublist hsublist
      simpa using this
    have hmin : min e.first.span.start e.last.span.start = e.first.span.start := if_pos hprecedes.1
    have hmax : max e.first.span.stop e.last.span.stop = e.last.span.stop := if_pos hprecedes.2
    rw [span, Span.merge, hmin, hmax, reach]

end Extent

namespace Header

variable {Place : Type}

theorem Value.inOrder (v : Value Place) : v.extent.InOrder v.tokens := by
  rcases v with ⟨_ | ⟨t, _ | ⟨u, ts⟩⟩, hne, -, -, -⟩
  · exact absurd rfl hne
  · exact .inl rfl
  · refine .inr (List.Sublist.cons_cons t (List.singleton_sublist.2 ?_))
    rw [extent, List.getLast_cons_cons]
    exact List.getLast_mem (List.cons_ne_nil u ts)

/-- The groups of a type stand in it, in order. -/
theorem groups_sublist (type : List (TypePart Place)) :
    ((type.filterMap TypePart.group?).flatMap Group.tokens).Sublist
      (type.flatMap TypePart.tokens) := by
  induction type with
  | nil => exact List.Sublist.refl _
  | cons part type ih =>
    cases part with
    | qualifier t => exact ih.cons _
    | group g => exact (List.Sublist.refl g.tokens).append ih
    | word t => exact ih.cons _

/-- The ends of a range are brackets of the type. -/
theorem inOrder_of_mem_range {type : List (TypePart Place)} {e : Extent Place}
    (he : e ∈ range type) :
    e.InOrder (type.flatMap TypePart.tokens) := by
  have hgroups := groups_sublist type
  rw [range] at he
  rcases hsplit : type.filterMap TypePart.group? with _ | ⟨g, gs⟩
  · rw [hsplit] at he
    cases he
  · rw [hsplit] at he hgroups
    obtain rfl := Option.some.inj he
    refine .inr (List.Sublist.trans ?_ hgroups)
    refine List.Sublist.cons_cons _ (List.singleton_sublist.2 ?_)
    rcases List.eq_nil_or_concat gs with rfl | ⟨init, last, rfl⟩
    · simp
    · simp [Group.tokens]

theorem Separated.sublist_tokens {A : Type} (spell : A → List (Lexeme Place))
    {s : Separated Place A} {x : A} (hx : x ∈ s.items) : (spell x).Sublist (s.tokens spell) := by
  rcases List.mem_cons.1 hx with rfl | hx
  · exact List.sublist_append_left _ _
  · obtain ⟨y, hy, rfl⟩ := List.mem_map.1 hx
    have hmore := List.sublist_flatten_of_mem
      (List.mem_map_of_mem hy : (y.1.1 :: spell y.2) ∈ s.more.map fun x => x.1.1 :: spell x.2)
    exact ((List.sublist_cons_self _ _).trans hmore).trans (List.sublist_append_right _ _)

theorem Clause.inOrder_parameters {c : Clause Place} {p : Lexeme Place × Extent Place}
    (hp : p ∈ c.parameters) : p.2.InOrder c.tokens := by
  cases c with
  | parameter c =>
    obtain ⟨i, hi, rfl⟩ := List.mem_map.1 hp
    have hvalue : i.value.tokens.Sublist i.tokens :=
      (List.sublist_cons_self _ _).trans (List.sublist_cons_self _ _)
    have hitem := Separated.sublist_tokens ParameterItem.tokens hi
    refine i.value.inOrder.mono (hvalue.trans (hitem.trans ?_))
    exact (List.sublist_append_right _ _).trans (List.sublist_cons_self _ _)
  | port c => cases hp

theorem Clause.inOrder_ports {c : Clause Place} {d : Direction}
    {p : Lexeme Place × Option (Extent Place)} (hp : p ∈ c.ports d) {e : Extent Place}
    (he : e ∈ p.2) :
    e.InOrder c.tokens := by
  cases c with
  | parameter c => cases hp
  | port c =>
    rw [ports] at hp
    split at hp
    · obtain ⟨i, hi, rfl⟩ := List.mem_map.1 hp
      refine (inOrder_of_mem_range he).mono ?_
      exact (List.sublist_append_left _ _).trans (List.sublist_cons_self _ _)
    · cases hp

theorem sublist_tokens_of_mem_clauses {h : Header Place} {c : Clause Place} (hc : c ∈ h.clauses) :
    c.tokens.Sublist h.tokens := by
  have hbody : h.body.Sublist h.tokens :=
    ((List.sublist_append_left _ _).trans (List.sublist_cons_self _ _)).trans
      (List.sublist_cons_self _ _)
  refine List.Sublist.trans ?_ hbody
  rw [clauses, List.mem_append, List.mem_append] at hc
  rw [body]
  rcases hc with (hc | hc) | hc
  · refine List.Sublist.trans ?_ (List.sublist_append_left _ _)
    generalize h.parameterList = list at hc
    rcases list with _ | l
    · cases hc
    · obtain ⟨c', hc', rfl⟩ := List.mem_map.1 hc
      refine (Separated.sublist_tokens ParameterClause.tokens hc').trans ?_
      exact ((List.sublist_append_left _ _).trans (List.sublist_cons_self _ _)).trans
        (List.sublist_cons_self _ _)
  · refine List.Sublist.trans ?_
      ((List.sublist_cons_self _ _).trans (List.sublist_append_right _ _))
    refine List.Sublist.trans ?_ (List.sublist_append_left _ _)
    generalize h.portList = list at hc
    rcases list with _ | l
    · cases hc
    · obtain ⟨c', hc', rfl⟩ := List.mem_map.1 hc
      exact Separated.sublist_tokens PortClause.tokens hc'
  · refine List.Sublist.trans ?_
      ((List.sublist_cons_self _ _).trans (List.sublist_append_right _ _))
    obtain ⟨s, hs, rfl⟩ := List.mem_map.1 hc
    have hstatement := List.sublist_flatten_of_mem
      (List.mem_map_of_mem hs : (s.1.tokens ++ [s.2.1]) ∈ h.statements.map fun s =>
        s.1.tokens ++ [s.2.1])
    refine ((List.sublist_append_left _ _).trans hstatement).trans ?_
    exact ((List.sublist_cons_self _ _).trans (List.sublist_cons_self _ _)).trans
      (List.sublist_append_right _ _)

/-! ## What a header declares -/

/-- The parameter that a header declares, as the source spells it. -/
def parameter? (source : String) (p : Token × Extent Span) : Option Parameter := do
  return ⟨← p.1.span.text? source, ← p.2.reach.text? source⟩

/-- The port that a header declares, as the source spells it; without a range it is scalar. -/
def port? (source : String) (p : Token × Option (Extent Span)) : Option Port := do
  return ⟨← p.1.span.text? source, ← (p.2.map (·.reach.text? source)).getD (some "")⟩

variable {source : String} {h : Header Span}

/-- The values of a header are found where its outline looks for them. -/
theorem mapM_parameter?_eq (hts : h.tokens.Pairwise Precedes) :
    h.parameters.mapM (parameter? source) = h.parameters.mapM (Signature.parameterAt? source) := by
  refine mapM_congr fun p hp => ?_
  obtain ⟨c, hc, hp⟩ := List.mem_flatMap.1 hp
  have horder := (Clause.inOrder_parameters hp).mono (sublist_tokens_of_mem_clauses hc)
  rw [parameter?, Signature.parameterAt?, Extent.span_eq_reach hts horder]

/-- The ranges of a header are found where its outline looks for them. -/
theorem mapM_port?_eq (hts : h.tokens.Pairwise Precedes) (d : Direction) :
    (h.ports d).mapM (port? source) = (h.ports d).mapM (Signature.portAt? source) := by
  refine mapM_congr fun p hp => ?_
  obtain ⟨c, hc, hp⟩ := List.mem_flatMap.1 hp
  obtain ⟨name, _ | e⟩ := p
  · rfl
  · have horder := (Clause.inOrder_ports hp rfl).mono (sublist_tokens_of_mem_clauses hc)
    simp only [port?, Signature.portAt?, Signature.rangeText?, Option.map_some,
      Extent.span_eq_reach hts horder]

end Header

namespace Stripped

/-- Without block keywords, nothing is taken out. -/
theorem ofTokens_of_noBlock {Place : Type} {ts : List (Lexeme Place)}
    (h : ∀ t ∈ ts, ∀ b, t.kind ≠ .keyword (.blockOpen b)) : ofTokens ts = ⟨ts, []⟩ := by
  induction ts with
  | nil => rfl
  | cons t ts ih =>
    rw [ofTokens, ofTokensFrom_cons_of_not_open (h t (List.mem_cons_self ..)), ← ofTokens,
      ih fun u hu => h u (List.mem_cons_of_mem _ hu)]
    rfl

end Stripped

namespace Extraction

/-- **Headers are extracted whole.** A source that starts with a header and has no task and no
function gives the header's name, all its parameters and all its ports, in order. -/
theorem ofSource?_of_header {source : String} {h : Header Span} {rest : List Token}
    (ha : Addressable source) (htokens : (Lexing.ofSource source).tokens = h.tokens ++ rest)
    (hblocks : ∀ t ∈ (Lexing.ofSource source).tokens, ∀ b, t.kind ≠ .keyword (.blockOpen b)) :
    ∃ x s, ofSource? source = some x ∧ x.result = .ok s ∧
      h.name.1.span.text? source = some s.name ∧
      h.parameters.mapM (Header.parameter? source) = some s.parameters ∧
      ∀ d, (h.ports d).mapM (Header.port? source) = some (s.ports d) := by
  obtain ⟨x, hx⟩ := exists_ofSource? ha
  have houtline : Outline.ofTokens (Stripped.ofTokens (Lexing.ofSource source).tokens).tokens =
      .ok ⟨h.name.1, h.clauses.flatMap Header.Clause.findings⟩ := by
    rw [Stripped.ofTokens_of_noBlock hblocks, htokens, h.ofTokens_append]
  obtain ⟨s, hs, hresult⟩ := ofOutline?_of_ofTokens hx houtline
  obtain ⟨name, hname, hfindings⟩ := Option.bind_eq_some_iff.1 hs
  obtain ⟨hsname, hparameters, hports⟩ := Signature.eq_of_consFindings? hfindings
  have hordered : h.tokens.Pairwise Precedes :=
    (Lexing.tokens_pairwise ha).sublist (htokens ▸ List.sublist_append_left _ _)
  rw [Header.filterMap_parameter?] at hparameters
  refine ⟨x, s, hx, hresult, by rw [hname, hsname], ?_, fun d => ?_⟩
  · rw [Header.mapM_parameter?_eq hordered, hparameters]
  · have hports := hports d
    rw [Header.filterMap_port?] at hports
    rw [Header.mapM_port?_eq hordered, hports]

/-- The header of `module m #(parameter W = 8)(input [7:0] a, b, output c); endmodule`. -/
def sampleHeader : Header Span where
  opener := ⟨⟨.keyword .moduleOpen, ⟨0, 6⟩⟩, rfl⟩
  name := ⟨⟨.identifier, ⟨7, 8⟩⟩, rfl⟩
  parameterList := some
    { hash := ⟨⟨.hash, ⟨9, 10⟩⟩, rfl⟩
      opening := ⟨⟨.opening .paren, ⟨10, 11⟩⟩, rfl⟩
      clauses :=
        { first :=
            { keyword := ⟨⟨.keyword .parameter, ⟨11, 20⟩⟩, rfl⟩
              type := []
              items :=
                { first :=
                    { name := ⟨⟨.identifier, ⟨21, 22⟩⟩, rfl⟩
                      equals := ⟨⟨.equals, ⟨23, 24⟩⟩, rfl⟩
                      value := .plain ⟨.number, ⟨25, 26⟩⟩ [] (by decide) (by decide) (by decide) }
                  more := [] }
              leads := .of_noWord (by simp) }
          more := [] }
      closing := ⟨⟨.closing .paren, ⟨26, 27⟩⟩, rfl⟩ }
  opening := ⟨⟨.opening .paren, ⟨27, 28⟩⟩, rfl⟩
  portList := some
    { first :=
        { direction := .input
          keyword := ⟨⟨.keyword (.direction .input), ⟨28, 33⟩⟩, rfl⟩
          type := [.group
            { opening := ⟨⟨.opening .square, ⟨34, 35⟩⟩, rfl⟩
              inner := [⟨.number, ⟨35, 36⟩⟩, ⟨.operator, ⟨36, 37⟩⟩, ⟨.number, ⟨37, 38⟩⟩]
              closing := ⟨⟨.closing .square, ⟨38, 39⟩⟩, rfl⟩
              closed := .of_noBracket (by decide)
              enclosed := by decide }]
          items :=
            { first := ⟨⟨⟨.identifier, ⟨40, 41⟩⟩, rfl⟩, [], none⟩
              more := [(⟨⟨.comma, ⟨41, 42⟩⟩, rfl⟩, ⟨⟨⟨.identifier, ⟨43, 44⟩⟩, rfl⟩, [], none⟩)] }
          leads := .of_noWord (by simp) }
      more := [(⟨⟨.comma, ⟨44, 45⟩⟩, rfl⟩,
        { direction := .output
          keyword := ⟨⟨.keyword (.direction .output), ⟨46, 52⟩⟩, rfl⟩
          type := []
          items := ⟨⟨⟨⟨.identifier, ⟨53, 54⟩⟩, rfl⟩, [], none⟩, []⟩
          leads := .of_noWord (by simp) })] }
  closing := ⟨⟨.closing .paren, ⟨54, 55⟩⟩, rfl⟩
  semicolon := ⟨⟨.semicolon, ⟨55, 56⟩⟩, rfl⟩
  statements := []
  closer := ⟨⟨.keyword .moduleClose, ⟨57, 66⟩⟩, rfl⟩

/-- A header with a parameter, two inputs that share a range, and an output without one. -/
theorem ofSource?_of_sampleHeader :
    ∃ x, ofSource? "module m #(parameter W = 8)(input [7:0] a, b, output c); endmodule" = some x ∧
      x.result = .ok ⟨"m", [⟨"W", "8"⟩], [⟨"a", "[7:0]"⟩, ⟨"b", "[7:0]"⟩], [⟨"c", ""⟩], []⟩ := by
  have htokens : (Lexing.ofSource
      "module m #(parameter W = 8)(input [7:0] a, b, output c); endmodule").tokens =
        sampleHeader.tokens ++ [⟨.eof, ⟨66, 66⟩⟩] := by cbv
  have hblocks : ∀ t ∈ sampleHeader.tokens ++ [⟨.eof, ⟨66, 66⟩⟩],
      ∀ b, t.kind ≠ .keyword (.blockOpen b) := by
    intro t ht b
    cases b with
    | task => revert t; decide
    | function => revert t; decide
  obtain ⟨x, s, hx, hresult, hname, hparameters, hports⟩ :=
    ofSource?_of_header (by decide) htokens (by rwa [htokens])
  refine ⟨x, hx, hresult.trans (congrArg Except.ok ?_)⟩
  obtain ⟨name, parameters, inputs, outputs, inouts⟩ := s
  obtain rfl : "m" = name := Option.some.inj ((by cbv : some "m" = _).trans hname)
  obtain rfl : [⟨"W", "8"⟩] = parameters :=
    Option.some.inj ((by cbv : some [⟨"W", "8"⟩] = _).trans hparameters)
  obtain rfl : [⟨"a", "[7:0]"⟩, ⟨"b", "[7:0]"⟩] = inputs :=
    Option.some.inj ((by cbv : some [⟨"a", "[7:0]"⟩, ⟨"b", "[7:0]"⟩] = _).trans (hports .input))
  obtain rfl : [⟨"c", ""⟩] = outputs :=
    Option.some.inj ((by cbv : some [⟨"c", ""⟩] = _).trans (hports .output))
  obtain rfl : [] = inouts := Option.some.inj ((by cbv : some [] = _).trans (hports .inout))
  rfl

end Extraction

end VerilogScaffold
