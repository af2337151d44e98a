import Mathlib
import VerilogScaffold.Proofs.FindingOrder
import VerilogScaffold.Proofs.HeaderExtraction
import VerilogScaffold.Proofs.WellFormed

/-!
# Extraction is decided by kinds

What extraction makes of a source depends on the kinds of its tokens. Where the tokens stand, and
what stands between them, matters only when text is copied. Sources with the same kinds in the same
order therefore have the same error at the same token, or one layout in common that says by index
which tokens every name, value and range is copied from (`Extraction.layout_independent`).

The layout is found by running the readers on tokens whose places are their indexes. Readers commute
with moving tokens (`Outline.ofTokens_map`), so a source is read as the indexes are, with its own
spans in place of them. Indexes also give the order: names are found from left to right
(`Outline.names_sublist`), and the first token of a run is not behind its last.
-/

namespace VerilogScaffold

variable {P : Type}

/-! ## Names are found in order -/

/-- The name of the parameter or port that a finding declares. -/
def Finding.name? : Finding P → Option (Lexeme P)
  | .parameter name _ | .port _ name _ => some name
  | .remark _ => none

namespace Outline

/-- The names of some findings, in order. -/
def namesOf (found : List (Finding P)) : List (Lexeme P) := found.filterMap Finding.name?

/-- The names of some findings are the tokens that those with a name are about. -/
theorem namesOf_eq_selected (found : List (Finding P)) :
    namesOf found = selected (·.name?.isSome) found := by
  induction found with
  | nil => rfl
  | cons x found ih =>
    unfold namesOf selected at ih ⊢
    cases x with
    | parameter name value => exact congrArg (name :: ·) ih
    | port direction name range => exact congrArg (name :: ·) ih
    | remark r => exact ih

/-- **Names are found from left to right.** -/
theorem names_sublist (ts : Tokens P) : (namesOf (readBody ts)).Sublist ts := by
  rw [namesOf_eq_selected]
  apply selected_sublist
  intro direction name range hremark
  cases hremark

theorem sublist_of_name?_eq {A : Type} {select : Finding P → Option A} {name : A → Lexeme P}
    (h : ∀ x a, select x = some a → x.name? = some (name a)) (found : List (Finding P)) :
    ((found.filterMap select).map name).Sublist (namesOf found) := by
  induction found with
  | nil => exact List.Sublist.refl _
  | cons x found ih =>
    rcases hx : select x with _ | a
    · rw [List.filterMap_cons_none hx]
      exact ih.trans ((List.sublist_cons_self x found).filterMap _)
    · rw [List.filterMap_cons_some hx, namesOf, List.filterMap_cons_some (h x a hx)]
      exact ih.cons_cons _

/-- The ends of a run of tokens stand in it in order. -/
theorem inOrder_of_extent? {ts : Tokens P} {e : Extent P} (h : extent? ts = some e) :
    e.InOrder ts := by
  rcases ts with _ | ⟨t, ts⟩
  · cases h
  · obtain rfl := Option.some.inj h
    rcases List.eq_nil_or_concat' ts with rfl | ⟨init, last, rfl⟩
    · exact .inl rfl
    · refine .inr (List.Sublist.cons_cons t (List.singleton_sublist.2 ?_))
      rw [List.getLastD_concat]
      exact List.mem_append_right _ (List.mem_singleton_self last)

/-- The extents of what stands among tokens are in order. -/
def OrderedIn (ts : Tokens P) : Finding P → Prop
  | .parameter _ value => value.InOrder ts
  | .port _ _ range => ∀ e ∈ range, e.InOrder ts
  | .remark _ => True

theorem Holds.orderedIn {ts us : Tokens P} {x : Finding P} (h : Holds ts x) (hts : ts.Sublist us) :
    OrderedIn us x := by
  rcases x with ⟨name, value⟩ | ⟨d, name, range⟩ | r
  · obtain ⟨-, -, before, equals, run, after, rfl, hvalue, -⟩ := h
    refine (inOrder_of_extent? hvalue).mono (List.Sublist.trans ?_ hts)
    have hrun : run.Sublist (name :: equals :: (run ++ after)) :=
      ((List.sublist_append_left run after).cons equals).cons name
    exact hrun.trans (List.sublist_append_right before _)
  · intro e he
    obtain ⟨before, run, after, rfl, hrun⟩ := h.2.2 e he
    refine (inOrder_of_extent? hrun.extent).mono (List.Sublist.trans ?_ hts)
    exact (List.sublist_append_left run after).trans (List.sublist_append_right before _)
  · trivial

/-- **What an outline finds stands in order**: its runs from their first token to their last, and
its names one behind the other. -/
theorem orderedIn_of_ok {ts : Tokens P} {o : Outline P} (ho : ofTokens ts = .ok o) :
    (∀ x ∈ o.findings, OrderedIn ts x) ∧ (namesOf o.findings).Sublist ts := by
  obtain ⟨before, opener, body, closer, rest, rfl, -, -, -, -, hresult⟩ := exists_module_of_ok ho
  obtain ⟨body, rfl, -, hfindings⟩ := ofBody_eq_ok_iff.1 hresult
  rw [hfindings]
  have hbody : body.Sublist (before ++ opener :: (o.name :: body ++ closer :: rest)) :=
    (((List.sublist_append_left body _).cons o.name).cons opener).trans
      (List.sublist_append_right before _)
  exact ⟨fun x hx => (readBody_holds body hx).orderedIn hbody, (names_sublist body).trans hbody⟩

end Outline

/-! ## Tokens by their indexes -/

/-- Tokens of some kinds, each at its index. -/
def indexed (kinds : List TokenKind) : List (Lexeme Nat) := kinds.zipIdx.map fun p => ⟨p.1, p.2⟩

theorem pairwise_indexed (kinds : List TokenKind) :
    (indexed kinds).Pairwise fun t u => t.place < u.place := by
  have hindexes : (kinds.zipIdx.map Prod.snd).Pairwise (· < ·) := by
    rw [List.zipIdx_map_snd]
    exact List.pairwise_lt_range' 1
  exact List.pairwise_map.2 (List.pairwise_map.1 hindexes)

/-- The place of the token at an index. -/
def placeAt (ts : List Token) (i : Nat) : Span := (ts[i]?.map Lexeme.place).getD .dummy

/-- A token of the indexes stands for the token at its index. -/
theorem getElem?_of_mem_indexed {ts : List Token} {t : Lexeme Nat}
    (h : t ∈ indexed (ts.map Lexeme.kind)) :
    ts[t.place]? = some (t.map (placeAt ts)) := by
  obtain ⟨⟨kind, i⟩, hmem, rfl⟩ := List.mem_map.1 h
  obtain ⟨u, hu, rfl⟩ : ∃ u, ts[i]? = some u ∧ u.kind = kind := by
    simpa using List.mem_zipIdx_iff_getElem?.1 hmem
  rw [hu, Lexeme.map, placeAt, hu]
  rfl

/-- Tokens are their indexes with their own places. -/
theorem map_placeAt_indexed (ts : List Token) :
    (indexed (ts.map Lexeme.kind)).map (Lexeme.map (placeAt ts)) = ts := by
  refine List.ext_getElem (by simp [indexed]) fun i h _ => ?_
  have hi : i < (indexed (ts.map Lexeme.kind)).length := by simpa using h
  have hmem := getElem?_of_mem_indexed (List.getElem_mem hi)
  have hplace : ((indexed (ts.map Lexeme.kind))[i]).place = i := by simp [indexed]
  rw [hplace] at hmem
  rw [List.getElem_map]
  exact (List.getElem_eq_iff _).2 hmem |>.symm

theorem exists_span_eq_placeAt {ts : List Token} {i : Nat} (h : i < ts.length) :
    ∃ t, ts[i]? = some t ∧ t.span = placeAt ts i := by
  refine ⟨ts[i], List.getElem?_eq_getElem h, ?_⟩
  rw [placeAt, List.getElem?_eq_getElem h]
  rfl

/-! ## Layouts -/

/-- A run of tokens, by the indexes of its first token and its last. -/
structure IndexRun where
  first : Nat
  last : Nat
  deriving DecidableEq

/-- What a source says from the start of the first token of a run to the end of its last. -/
def IndexRun.text? (source : String) (ts : List Token) (r : IndexRun) : Option String := do
  let first ← ts[r.first]?
  let last ← ts[r.last]?
  Span.text? ⟨first.span.start, last.span.stop⟩ source

/-- The indexes of a run of tokens. -/
def Extent.indexes (e : Extent Nat) : IndexRun := ⟨e.first.place, e.last.place⟩

/-- Which tokens the parts of a signature are copied from, by index: the name, each parameter's name
and value, and each port's name and range, if it has one. -/
structure SignatureLayout where
  name : Nat
  parameters : List (Nat × IndexRun)
  ports : Direction → List (Nat × Option IndexRun)

namespace SignatureLayout

/-- What a source says at the token of an index. -/
def name? (source : String) (ts : List Token) (i : Nat) : Option String := do
  let t ← ts[i]?
  t.span.text? source

def parameter? (source : String) (ts : List Token) (p : Nat × IndexRun) : Option Parameter := do
  return ⟨← name? source ts p.1, ← p.2.text? source ts⟩

def port? (source : String) (ts : List Token) (p : Nat × Option IndexRun) : Option Port := do
  return ⟨← name? source ts p.1, ← (p.2.map (·.text? source ts)).getD (some "")⟩

/-- The signature of a layout, copied from a source with the given tokens. -/
def signature? (source : String) (ts : List Token) (l : SignatureLayout) : Option Signature := do
  return {
    name := ← name? source ts l.name
    parameters := ← l.parameters.mapM (parameter? source ts)
    inputs := ← (l.ports .input).mapM (port? source ts)
    outputs := ← (l.ports .output).mapM (port? source ts)
    inouts := ← (l.ports .inout).mapM (port? source ts) }

/-- A layout whose names stand one behind the other, and whose runs go forward. -/
structure Ordered (l : SignatureLayout) : Prop where
  parameters : (l.parameters.map Prod.fst).Pairwise (· < ·)
  ports : ∀ d, ((l.ports d).map Prod.fst).Pairwise (· < ·)
  values : ∀ p ∈ l.parameters, p.2.first ≤ p.2.last
  ranges : ∀ d, ∀ p ∈ l.ports d, ∀ r ∈ p.2, r.first ≤ r.last

end SignatureLayout

/-- An error about the token at an index, as one about that token. -/
def ExtractError.ofIndex? (ts : List Token) : ExtractError Nat → Option (ExtractError Span)
  | .noModule => some .noModule
  | .missingEndmodule opener => ts[opener.place]?.map .missingEndmodule
  | .missingName found => ts[found.place]?.map .missingName

namespace Outline

/-- The layout of an outline of indexes. -/
def layout (o : Outline Nat) : SignatureLayout where
  name := o.name.place
  parameters := (o.findings.filterMap Finding.parameter?).map fun p => (p.1.place, p.2.indexes)
  ports d := (o.findings.filterMap (Finding.port? d)).map fun p =>
    (p.1.place, p.2.map Extent.indexes)

variable {kinds : List TokenKind} {o : Outline Nat}

theorem first_le_last {e : Extent Nat} (h : e.InOrder (indexed kinds)) :
    e.indexes.first ≤ e.indexes.last := by
  rcases h with heq | hsublist
  · exact Nat.le_of_eq (congrArg Lexeme.place heq)
  · have := (pairwise_indexed kinds).sublist hsublist
    have hlt : e.first.place < e.last.place := by simpa using this
    exact Nat.le_of_lt hlt

/-- The layout of what is read is ordered. -/
theorem layout_ordered (ho : ofTokens (indexed kinds) = .ok o) : o.layout.Ordered := by
  obtain ⟨hordered, hnames⟩ := orderedIn_of_ok ho
  -- names that any choice of findings gives are increasing, as all names are
  have hincreasing : ∀ {A B : Type} {select : Finding Nat → Option A} (name : A → Lexeme Nat)
      (place : A → B), (∀ x a, select x = some a → x.name? = some (name a)) →
        (((o.findings.filterMap select).map fun a => ((name a).place, place a)).map
          Prod.fst).Pairwise (· < ·) := by
    intro A B select name place h
    have hsublist := (sublist_of_name?_eq h o.findings).trans hnames
    rw [List.map_map]
    have := (pairwise_indexed kinds).sublist hsublist
    rw [List.pairwise_map] at this ⊢
    exact this
  refine ⟨hincreasing Prod.fst _ fun x p h => ?_, fun d => hincreasing Prod.fst _ fun x p h => ?_,
    fun p hp => ?_, fun d p hp r hr => ?_⟩
  · rw [Finding.parameter?_eq_some_iff.1 h]
    rfl
  · rw [Finding.port?_eq_some_iff.1 h]
    rfl
  · obtain ⟨q, hq, rfl⟩ := List.mem_map.1 hp
    exact first_le_last (hordered _ (Finding.mem_filterMap_parameter?.1 hq))
  · obtain ⟨q, hq, rfl⟩ := List.mem_map.1 hp
    obtain ⟨e, he, rfl⟩ := Option.map_eq_some_iff.1 hr
    exact first_le_last (hordered _ (Finding.mem_filterMap_port?.1 hq) e he)

end Outline

namespace Extraction

variable {source : String} {ts : List Token}

/-! ## Copying a layout from a source -/

theorem name?_eq {t : Lexeme Nat} (ht : t.place < ts.length) :
    SignatureLayout.name? source ts t.place = (t.map (placeAt ts)).span.text? source := by
  obtain ⟨u, hu, hspan⟩ := exists_span_eq_placeAt ht
  rw [SignatureLayout.name?, hu]
  exact congrArg (Span.text? · source) hspan

/-- On tokens that stand in order, what is said along a run is what is said at its span. -/
theorem text?_indexes (source : String) (hts : ts.Pairwise Precedes) {e : Extent Nat}
    (he : e.Forall (· < ts.length)) (horder : (e.map (placeAt ts)).InOrder ts) :
    e.indexes.text? source ts = (e.map (placeAt ts)).span.text? source := by
  obtain ⟨t, ht, hfirst⟩ := exists_span_eq_placeAt he.1
  obtain ⟨u, hu, hlast⟩ := exists_span_eq_placeAt he.2
  rw [Extent.span_eq_reach hts horder, IndexRun.text?, Extent.indexes, ht, hu]
  show Span.text? ⟨t.span.start, u.span.stop⟩ source = _
  rw [hfirst, hlast]
  rfl

variable {o : Outline Nat} (hts : ts.Pairwise Precedes) (hplaces : o.Forall (· < ts.length))
  (hordered : ∀ x ∈ o.findings, Outline.OrderedIn ts (x.map (placeAt ts)))

include hts hplaces hordered

theorem mapM_parameter?_layout :
    o.layout.parameters.mapM (SignatureLayout.parameter? source ts) =
      ((o.map (placeAt ts)).findings.filterMap Finding.parameter?).mapM
        (Signature.parameterAt? source) := by
  rw [Outline.map, Finding.filterMap_parameter?_map, Outline.layout, List.mapM_map, List.mapM_map]
  refine mapM_congr fun p hp => ?_
  have hx := Finding.mem_filterMap_parameter?.1 hp
  obtain ⟨hname, hvalue⟩ := hplaces.2 _ hx
  have htext := text?_indexes source hts hvalue (hordered _ hx)
  simp only [Function.comp_apply, SignatureLayout.parameter?, name?_eq hname, htext]
  rfl

theorem mapM_port?_layout (d : Direction) :
    (o.layout.ports d).mapM (SignatureLayout.port? source ts) =
      ((o.map (placeAt ts)).findings.filterMap (Finding.port? d)).mapM
        (Signature.portAt? source) := by
  rw [Outline.map, Finding.filterMap_port?_map, Outline.layout, List.mapM_map, List.mapM_map]
  refine mapM_congr fun p hp => ?_
  have hx := Finding.mem_filterMap_port?.1 hp
  obtain ⟨hname, hrange⟩ := hplaces.2 _ hx
  obtain ⟨name, _ | e⟩ := p
  · simp only [Function.comp_apply, SignatureLayout.port?, name?_eq hname]
    rfl
  · have htext := text?_indexes source hts (hrange e rfl) (hordered _ hx _ rfl)
    simp only [Function.comp_apply, SignatureLayout.port?, Signature.portAt?,
      Signature.rangeText?, name?_eq hname, Option.map_some, htext]

/-- The signature that is looked up from an outline is the one copied from its layout. -/
theorem signature?_layout {s : Signature}
    (hs : Signature.ofOutline? source (o.map (placeAt ts)) = some s) :
    o.layout.signature? source ts = some s := by
  obtain ⟨name, hname, hfindings⟩ := Option.bind_eq_some_iff.1 hs
  obtain ⟨rfl, hparameters, hports⟩ := Signature.eq_of_consFindings? hfindings
  rw [← mapM_parameter?_layout hts hplaces hordered] at hparameters
  simp only [← mapM_port?_layout hts hplaces hordered] at hports
  have hname' : SignatureLayout.name? source ts o.layout.name = some s.name :=
    (name?_eq hplaces.1).trans hname
  simp only [SignatureLayout.signature?, hname', hparameters, hports]
  rfl

end Extraction

/-! ## Sources with the same kinds -/

/-- Which tokens are kept is decided by their kinds. -/
theorem Stripped.kinds_ofTokens_congr {P Q : Type} {ts : List (Lexeme P)} {us : List (Lexeme Q)}
    (h : ts.map Lexeme.kind = us.map Lexeme.kind) :
    (ofTokens ts).tokens.map Lexeme.kind = (ofTokens us).tokens.map Lexeme.kind := by
  have hbare : ∀ {R : Type} (ts : List (Lexeme R)), (ofTokens ts).tokens.map Lexeme.kind =
      (ofTokens ((ts.map Lexeme.kind).map (Lexeme.mk · ()))).tokens.map Lexeme.kind := by
    intro R ts
    have hmap : (ts.map Lexeme.kind).map (Lexeme.mk · ()) = ts.map (Lexeme.map fun _ => ()) := by
      rw [List.map_map]
      rfl
    rw [hmap, ofTokens_map, Stripped.map, List.map_map]
    rfl
  rw [hbare ts, hbare us, h]

namespace Extraction

variable {source : String}

/-- A source is read as the indexes of its kept tokens are, with its own places in place of them. -/
theorem ofTokens_keptTokens (source : String) :
    Outline.ofTokens (keptTokens source) =
      ((Outline.ofTokens (indexed ((keptTokens source).map Lexeme.kind))).map
        (Outline.map (placeAt (keptTokens source)))).mapError
          (ExtractError.map (placeAt (keptTokens source))) := by
  rw [← Outline.ofTokens_map, map_placeAt_indexed]

/-- The error about the indexes is the error of the source, at the same token. -/
theorem exists_error_of_indexed (ha : Addressable source) {e : ExtractError Nat}
    (he : Outline.ofTokens (indexed ((keptTokens source).map Lexeme.kind)) = .error e) :
    ∃ x e', ofSource? source = some x ∧ x.result = .error e' ∧
      e.ofIndex? (keptTokens source) = some e' := by
  have ho := ofTokens_keptTokens source
  rw [he] at ho
  obtain ⟨e', ho', hx⟩ | ⟨o, s, late, ho', -⟩ := report_cases ha
  · rw [ho'] at ho
    refine ⟨_, e', ofSource?_eq ha, by rw [hx], ?_⟩
    obtain rfl := Except.error.inj ho
    have hdescribes := Outline.describes_of_ofTokens he
    cases e with
    | noModule => rfl
    | missingEndmodule opener =>
      obtain ⟨before, after, hsplit, -⟩ := hdescribes
      rw [ExtractError.ofIndex?, getElem?_of_mem_indexed (by rw [hsplit]; simp)]
      rfl
    | missingName found =>
      obtain ⟨before, opener, after, hsplit, -⟩ := hdescribes
      rw [ExtractError.ofIndex?, getElem?_of_mem_indexed (by rw [hsplit]; simp)]
      rfl
  · rw [ho'] at ho
    cases ho

/-- The layout of the indexes is a layout of the source's signature. -/
theorem exists_signature_of_indexed (ha : Addressable source) {o : Outline Nat}
    (ho : Outline.ofTokens (indexed ((keptTokens source).map Lexeme.kind)) = .ok o) :
    ∃ x s, ofSource? source = some x ∧ x.result = .ok s ∧
      o.layout.signature? source (keptTokens source) = some s := by
  have hread := ofTokens_keptTokens source
  rw [ho] at hread
  obtain ⟨s, hs, hresult⟩ := ofOutline?_of_ofTokens (ofSource?_eq ha) hread
  have hts : (keptTokens source).Pairwise Precedes :=
    (Lexing.tokens_pairwise ha).sublist (Stripped.tokens_sublist _)
  have hplaces : o.Forall (· < (keptTokens source).length) := by
    refine Outline.ofTokens_forall (fun t ht => ?_) ho
    exact (List.getElem?_eq_some_iff.1 (getElem?_of_mem_indexed ht)).1
  refine ⟨_, s, ofSource?_eq ha, hresult, signature?_layout hts hplaces (fun x hx => ?_) hs⟩
  exact (Outline.orderedIn_of_ok hread).1 _ (List.mem_map_of_mem hx)

/-- **Extraction is decided by kinds.** Of two sources whose tokens have the same kinds in the same
order, either both have the same error at the same token, or both have a signature, and one layout
in common says which tokens it is copied from. -/
theorem layout_independent {a b : String} (ha : Addressable a) (hb : Addressable b)
    (hkinds : (Lexing.ofSource a).tokens.map Lexeme.kind =
      (Lexing.ofSource b).tokens.map Lexeme.kind) :
    (∃ e : ExtractError Nat, ∀ source ∈ [a, b], ∃ x e', ofSource? source = some x ∧
        x.result = .error e' ∧ e.ofIndex? (keptTokens source) = some e') ∨
      ∃ l : SignatureLayout, l.Ordered ∧ ∀ source ∈ [a, b], ∃ x s, ofSource? source = some x ∧
        x.result = .ok s ∧ l.signature? source (keptTokens source) = some s := by
  have hkept : (keptTokens a).map Lexeme.kind = (keptTokens b).map Lexeme.kind :=
    Stripped.kinds_ofTokens_congr hkinds
  have hboth : ∀ source ∈ [a, b], Addressable source ∧
      (keptTokens source).map Lexeme.kind = (keptTokens b).map Lexeme.kind := by
    simp [ha, hb, hkept]
  rcases h : Outline.ofTokens (indexed ((keptTokens b).map Lexeme.kind)) with e | o
  · refine .inl ⟨e, fun source hsource => ?_⟩
    obtain ⟨haddressable, hsame⟩ := hboth source hsource
    exact exists_error_of_indexed haddressable (hsame ▸ h)
  · refine .inr ⟨o.layout, Outline.layout_ordered h, fun source hsource => ?_⟩
    obtain ⟨haddressable, hsame⟩ := hboth source hsource
    exact exists_signature_of_indexed haddressable (hsame ▸ h)

/-- Sources with the same kinds, one of them with a comment, line breaks and other words. -/
theorem layout_independent_spaced :
    ∃ l : SignatureLayout, l.Ordered ∧
      l.signature? "module m(input [3:0] a); endmodule"
        (keptTokens "module m(input [3:0] a); endmodule") =
        some ⟨"m", [], [⟨"a", "[3:0]"⟩], [], []⟩ ∧
      l.signature? "module top /* x */ (\ninput [ 15\n:8 ] data); endmodule"
          (keptTokens "module top /* x */ (\ninput [ 15\n:8 ] data); endmodule") =
        some ⟨"top", [], [⟨"data", "[ 15\n:8 ]"⟩], [], []⟩ := by
  have ha : ofSource? "module m(input [3:0] a); endmodule" =
      some ⟨.ok ⟨"m", [], [⟨"a", "[3:0]"⟩], [], []⟩, []⟩ := by
    rw [ofSource?_eq_ofLexing?]
    cbv
  have hb : ofSource? "module top /* x */ (\ninput [ 15\n:8 ] data); endmodule" =
      some ⟨.ok ⟨"top", [], [⟨"data", "[ 15\n:8 ]"⟩], [], []⟩, []⟩ := by
    rw [ofSource?_eq_ofLexing?]
    cbv
  rcases layout_independent (a := "module m(input [3:0] a); endmodule")
    (b := "module top /* x */ (\ninput [ 15\n:8 ] data); endmodule") (by decide)
    (by decide) (by cbv) with
    ⟨e, h⟩ | ⟨l, hordered, h⟩
  · obtain ⟨x, e', hx, hresult, -⟩ := h _ (List.mem_cons_self ..)
    obtain rfl := Option.some.inj (ha.symm.trans hx)
    cases hresult
  · obtain ⟨x, s, hx, hresult, hs⟩ := h _ (List.mem_cons_self ..)
    obtain ⟨y, t, hy, hresult', ht⟩ := h _ (List.mem_cons_of_mem _ (List.mem_singleton_self _))
    obtain rfl := Option.some.inj (ha.symm.trans hx)
    obtain rfl := Option.some.inj (hb.symm.trans hy)
    obtain rfl := Except.ok.inj hresult
    obtain rfl := Except.ok.inj hresult'
    exact ⟨l, hordered, hs, ht⟩

end Extraction

end VerilogScaffold
