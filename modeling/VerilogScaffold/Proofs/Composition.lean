import Mathlib.Data.List.DropRight
import VerilogScaffold.Proofs.Legibility
import VerilogScaffold.Proofs.Padding

/-!
# Modules put together from pieces

Generated text is a module of known shape: declarations of parameters, and statements that declare
nothing to a reader of signatures. It is read from its end: `Completes cs ps` says that a text is
the rest of a module, after the module's name, in which just the parameters `ps` are declared, and
each piece that is put in front has a lemma that says what it adds. Values are compared without the
blanks at their end, which padding may add (`Parameter.trimmed`).
-/

namespace VerilogScaffold

open Text Segment

/-! ## What is left of a text, piece by piece -/

namespace Keeps

variable {c : Char} {cs F : List Char} {ts : List (Lexeme Site)}

theorem reads (h : Keeps F ts) : Reads F (lexemes F) := ⟨rfl, h.faultless⟩

theorem of_reads {us : List (Lexeme Site)} (h : Reads cs us)
    (hus : Stripped.ofTokens us = ⟨ts, []⟩) :
    Keeps cs ts :=
  ⟨h.faultless, by rw [Stripped.read, h.tokens, hus]⟩

theorem blanks (hcs : ∀ c ∈ cs, isAsciiBlank c = true) (h : Keeps F ts) : Keeps (cs ++ F) ts :=
  of_reads (h.reads.blanks hcs) h.read

theorem nil : Keeps [] [] := of_reads Reads.nil rfl

theorem blank (hc : isAsciiBlank c = true) (h : Keeps F ts) : Keeps (c :: F) ts :=
  of_reads (h.reads.blank hc) h.read

/-- A comment or a directive in front of a text. -/
theorem skip {kind : SegmentKind} (hmeasure : measure c (cs ++ F) = (kind, cs.length))
    (hkind : kind.tokenKind? = none) (hfault : kind.isFault = false) (h : Keeps F ts) :
    Keeps (c :: cs ++ F) ts :=
  of_reads (h.reads.skip hmeasure hkind hfault) h.read

/-- Tokens that open no block in front of a text. -/
theorem prepend {us : List (Lexeme Site)} (hread : Reads cs (us ++ lexemes F))
    (hus : ∀ t ∈ us, ∀ b, t.kind ≠ .keyword (.blockOpen b)) (h : Keeps F ts) :
    Keeps cs (us ++ ts) := by
  refine of_reads hread ?_
  clear hread
  induction us with
  | nil => exact h.read
  | cons t us ih =>
    have hrest := ih fun u hu => hus u (List.mem_cons_of_mem _ hu)
    rw [List.cons_append, Stripped.ofTokens,
      Stripped.ofTokensFrom_cons_of_not_open (hus t (List.mem_cons_self ..)),
      ← Stripped.ofTokens, hrest]
    rfl

theorem cons {t : Lexeme Site} (hread : Reads cs (t :: lexemes F))
    (ht : ∀ b, t.kind ≠ .keyword (.blockOpen b)) (h : Keeps F ts) : Keeps cs (t :: ts) := by
  have hus : ∀ u ∈ [t], ∀ b, u.kind ≠ .keyword (.blockOpen b) := by
    simpa using ht
  exact h.prepend hread hus

theorem lexeme {kind : TokenKind} (hmeasure : measure c (cs ++ F) = (.lexeme kind, cs.length))
    (hkind : ∀ b, kind ≠ .keyword (.blockOpen b)) (h : Keeps F ts) :
    Keeps (c :: cs ++ F) (⟨kind, ⟨c :: cs ++ F, F⟩⟩ :: ts) :=
  h.cons (h.reads.lexeme hmeasure) hkind

/-- A token of one character in front of a text. -/
theorem single {kind : TokenKind} (hmeasure : measure c F = (.lexeme kind, 0))
    (hkind : ∀ b, kind ≠ .keyword (.blockOpen b)) (h : Keeps F ts) :
    Keeps (c :: F) (⟨kind, ⟨c :: F, F⟩⟩ :: ts) := by
  show Keeps (c :: [] ++ F) (⟨kind, ⟨c :: [] ++ F, F⟩⟩ :: ts)
  exact h.lexeme hmeasure hkind

/-- A name in front of spaces and what is no word. -/
theorem name {name : List Char} (hname : IsName name) {k : Nat}
    (hk : name.head? = some '\\' → 0 < k) (hF : startsWith isWordChar F = false) (h : Keeps F ts) :
    Keeps (name ++ (List.replicate k ' ' ++ F))
      (⟨nameKind name, ⟨name ++ (List.replicate k ' ' ++ F), List.replicate k ' ' ++ F⟩⟩ :: ts) :=
  by
  refine h.cons (h.reads.name hname hk hF) fun b hb => ?_
  rw [nameKind] at hb
  split at hb <;> cases hb

/-- An excerpt in front of a text. -/
theorem excerpt {v : List Char} {run : List (Lexeme Site)} (hv : Excerpt v run)
    (hF : MayReplace [] F) (hlast : ∀ s ∈ (split v).getLast?, s.Tolerates [] F) (h : Keeps F ts) :
    Keeps (v ++ F) (run.map (Lexeme.map (Site.append F)) ++ ts) := by
  refine of_reads (hv.toKeeps.reads.append h.reads hF fun s hs => hlast s hs) ?_
  have hstrip : Stripped.ofTokens ((lexemes v).map (Lexeme.map (Site.append F))) =
      ⟨run.map (Lexeme.map (Site.append F)), []⟩ := by
    rw [Stripped.ofTokens_map, ← Stripped.read, hv.read]
    rfl
  rw [Stripped.ofTokens_append (by simp [hstrip]), hstrip, ← Stripped.read, h.read]
  rfl

end Keeps

/-- A token that is kept opens no block. -/
theorem Keeps.not_open {cs : List Char} {ts : List (Lexeme Site)} (h : Keeps cs ts)
    {t : Lexeme Site} (ht : t ∈ ts) (b : Block) : t.kind ≠ .keyword (.blockOpen b) := by
  obtain ⟨before, after, rfl⟩ := List.append_of_mem ht
  obtain ⟨-, -, -, -, -, -, hopen⟩ := Stripped.exists_kept_from h.read
  exact hopen b

/-- An excerpt says the same in front of more text. -/
theorem Excerpt.exists_extent_append {v : List Char} {run : List (Lexeme Site)} (h : Excerpt v run)
    (F : List Char) :
    ∃ e, Outline.extent? (run.map (Lexeme.map (Site.append F))) = some e ∧ e.text = v := by
  obtain ⟨e, he, hhere, hafter⟩ := h.extent
  rcases run with _ | ⟨t, run⟩
  · cases he
  obtain rfl := Option.some.inj he
  refine ⟨_, rfl, ?_⟩
  have hlast : (run.getLastD t).place.LiesOn v := by
    have hmem : run.getLastD t ∈ t :: run := by
      rw [List.getLastD_eq_getLast?]
      rcases hrun : run.getLast? with _ | u
      · exact List.mem_cons_self ..
      · exact List.mem_cons_of_mem _ (List.mem_of_getLast? hrun)
    refine liesOn_of_mem_lexemes ((Stripped.tokens_sublist (lexemes v)).subset ?_)
    rw [← Stripped.read, h.read]
    exact hmem
  have hmap : (run.map (Lexeme.map (Site.append F))).getLastD (t.map (Site.append F)) =
      (run.getLastD t).map (Site.append F) := by
    rw [List.getLastD_eq_getLast?, List.getLastD_eq_getLast?, List.getLast?_map]
    cases run.getLast? <;> rfl
  have hhere' : (t.place.append F).here = v ++ F := congrArg (· ++ F) hhere
  have hafter' : ((run.getLastD t).place.append F).after = F := congrArg (· ++ F) hafter
  rw [Extent.text, hmap]
  show ((t.place.append F).merge ((run.getLastD t).place.append F)).text = v
  rw [Site.merge_eq, hhere', hafter', Site.text_mk_append]
  · obtain ⟨front, hfront⟩ := hlast.here
    rw [hhere']
    exact ⟨front, by rw [← hfront, Site.append, List.append_assoc]⟩
  · rw [hafter']
    exact List.suffix_append _ _

/-! ## Statements -/

namespace Outline

variable {P : Type}

/-- The statement that declares one parameter. -/
theorem readBody_parameter_statement {keyword name equals semicolon : Lexeme P} {run : Tokens P}
    {value : Extent P} (hkeyword : keyword.kind = .keyword .parameter)
    (hname : name.kind.isIdentifier = true) (hequals : equals.kind = .equals)
    (hsemicolon : semicolon.kind = .semicolon) (hvalue : extent? run = some value)
    (hrun : splitExpression 0 run = (run, [])) (after : Tokens P) :
    readBody (keyword :: name :: equals :: (run ++ semicolon :: after)) =
      .parameter name value :: readBody after := by
  have hends : Header.EndsName (equals :: run) :=
    ⟨equals, run, rfl, by rw [hequals]; rfl, by rw [hequals]; rfl⟩
  have htype := Header.splitType_name none ⟨name, hname⟩ hends
  have hitem : parameterItem keyword (name :: equals :: run) =
      (.parameter name value, [], false) := by
    rw [parameterItem, if_pos hname]
    simp only [hequals, if_true, hrun, parameterFinding, hvalue]
    rfl
  have hclause : parameterClause keyword (name :: equals :: run) =
      ([.parameter name value], []) := by
    rw [parameterClause, htype, hitem]
    rfl
  have hcut : keyword :: name :: equals :: (run ++ semicolon :: after) =
      keyword :: name :: equals :: run ++ semicolon :: after := rfl
  rw [hcut, readBody_append_semicolon hsemicolon, readBody_parameter hkeyword, hclause, readBody]
  rfl

end Outline

/-! ## Bodies -/

theorem Text.rdropWhile_append_spaces (cs : List Char) (k : Nat) :
    (cs ++ List.replicate k ' ').rdropWhile isAsciiBlank = cs.rdropWhile isAsciiBlank := by
  induction k with
  | zero => rw [List.replicate_zero, List.append_nil]
  | succ k ih =>
    rw [List.replicate_succ', ← List.append_assoc, List.rdropWhile_concat_pos _ _ _ (by decide), ih]

/-- A parameter without the blanks at the end of its value. -/
def Parameter.trimmed (p : Parameter) : Parameter :=
  ⟨p.name, String.ofList (p.value.toList.rdropWhile isAsciiBlank)⟩

/-- Whether a token neither declares anything nor ends a block or the module. -/
def TokenKind.isInert : TokenKind → Bool
  | .keyword .parameter | .keyword (.direction _) | .keyword .moduleClose | .keyword
      (.blockOpen _) => false
  | _ => true

theorem isInert_nameKind (name : List Char) : (nameKind name).isInert = true := by
  rw [nameKind]
  split <;> rfl

/-- Whether a segment of some kind declares nothing, and is not malformed. -/
def SegmentKind.isInert : SegmentKind → Bool
  | .lexeme kind => kind.isInert
  | .blank | .comment true | .directive => true
  | .comment false | .malformed _ => false

/-- Whether a segment of some kind is a lexeme that tolerates everything behind it. -/
def SegmentKind.isSettled : SegmentKind → Bool
  | .lexeme .number | .lexeme .escapedIdentifier => false
  | .lexeme _ => true
  | .blank | .comment _ | .directive | .malformed _ => false

/-- Whether a text declares nothing and ends with a lexeme that tolerates everything behind it. -/
def isFiller (cs : List Char) : Bool :=
  (split cs).all (·.kind.isInert) && (split cs).getLast?.any (·.kind.isSettled)

theorem Segment.tolerates_of_isSettled {s : Segment} (h : s.kind.isSettled = true)
    (F F' : List Char) :
    s.Tolerates F F' := by
  unfold Tolerates
  split <;> simp_all [SegmentKind.isSettled]

theorem TokenKind.isInert_iff {kind : TokenKind} :
    kind.isInert = true ↔ kind ≠ .keyword .parameter ∧
    (∀ d, kind ≠ .keyword (.direction d)) ∧ kind ≠ .keyword .moduleClose ∧
      ∀ b, kind ≠ .keyword (.blockOpen b) := by
  unfold isInert
  split <;> simp_all

namespace Outline

/-- Whether a body declares some parameters, in order, and nothing else. -/
structure Lists (body : Tokens Site) (ps : List Parameter) : Prop where
  noCloser : NoCloser body
  parameters : (((readBody body).filterMap Finding.parameter?).map Signature.parameterOf).map
    Parameter.trimmed = ps.map Parameter.trimmed
  ports : ∀ d, (readBody body).filterMap (Finding.port? d) = []

namespace Lists

variable {body : Tokens Site} {ps : List Parameter}

theorem nil : Lists [] [] := ⟨noCloser_nil, by rw [readBody]; rfl, fun d => by rw [readBody]; rfl⟩

theorem append {us : Tokens Site} (hus : ∀ t ∈ us, t.kind.isInert = true) (h : Lists body ps) :
    Lists (us ++ body) ps := by
  induction us with
  | nil => exact h
  | cons t us ih =>
    have hrest := ih fun u hu => hus u (List.mem_cons_of_mem _ hu)
    obtain ⟨hparameter, hdirection, hcloser, -⟩ :=
      TokenKind.isInert_iff.1 (hus t (List.mem_cons_self ..))
    have hread : readBody (t :: us ++ body) = readBody (us ++ body) :=
      readBody_other hparameter hdirection _
    refine ⟨noCloser_cons.2 ⟨hcloser, hrest.noCloser⟩, ?_, fun d => ?_⟩
    · rw [hread]
      exact hrest.parameters
    · rw [hread]
      exact hrest.ports d

/-- A statement that declares one more parameter. -/
theorem statement {keyword name equals semicolon : Lexeme Site} {run : Tokens Site}
    {value : Extent Site}
    (hkeyword : keyword.kind = .keyword .parameter) (hname : name.kind.isIdentifier = true)
    (hequals : equals.kind = .equals) (hsemicolon : semicolon.kind = .semicolon)
    (hvalue : extent? run = some value) (hrun : splitExpression 0 run = (run, []))
    (hcloser : NoCloser run) {p : Parameter}
    (hp : (Signature.parameterOf (name, value)).trimmed = p.trimmed) (h : Lists body ps) :
    Lists (keyword :: name :: equals :: (run ++ semicolon :: body)) (p :: ps) := by
  have hread := readBody_parameter_statement hkeyword hname hequals hsemicolon hvalue hrun body
  refine ⟨?_, ?_, fun d => ?_⟩
  · have hname' : name.kind ≠ .keyword .moduleClose := fun hkind => by
      rw [hkind] at hname
      cases hname
    simp [hkeyword, hname', hequals, hsemicolon, hcloser, h.noCloser]
  · rw [hread, List.filterMap_cons, Finding.parameter?, List.map_cons, List.map_cons, List.map_cons,
      hp, h.parameters]
  · rw [hread]
    exact h.ports d

end Lists

end Outline

/-- Whether a text is the rest of a module in which some parameters are declared, in order, and
nothing else. -/
def Completes (cs : List Char) (ps : List Parameter) : Prop :=
  ∃ body closer rest, Keeps cs (body ++ closer :: rest) ∧ closer.kind = .keyword .moduleClose ∧
    Outline.Lists body ps

namespace Completes

variable {F G : List Char} {ps : List Parameter}

/-- A text in front that changes nothing in what is left behind it. -/
theorem of_keeps (h : Completes F ps) (hkeeps : ∀ {ts}, Keeps F ts → Keeps G ts) :
    Completes G ps := by
  obtain ⟨body, closer, rest, hF, hcloser, hbody⟩ := h
  exact ⟨body, closer, rest, hkeeps hF, hcloser, hbody⟩

theorem endmodule {ts : List (Lexeme Site)} (h : Keeps F ts)
    (hF : startsWith isWordChar F = false) :
    Completes ("endmodule".toList ++ F) [] := by
  have hmeasure : measure 'e' ("ndmodule".toList ++ F) = (.lexeme (.keyword .moduleClose), 8) :=
    measure_word_append rfl (by decide) hF
  have hcloser : Keeps ('e' :: "ndmodule".toList ++ F) (⟨.keyword .moduleClose, ⟨_, _⟩⟩ :: ts) :=
    h.lexeme hmeasure fun b hb => nomatch hb
  exact ⟨[], _, ts, hcloser, rfl, Outline.Lists.nil⟩

theorem blank {c : Char} (hc : isAsciiBlank c = true) (h : Completes F ps) :
    Completes (c :: F) ps :=
  h.of_keeps (Keeps.blank hc)

theorem blanks {cs : List Char} (hcs : ∀ c ∈ cs, isAsciiBlank c = true) (h : Completes F ps) :
    Completes (cs ++ F) ps :=
  h.of_keeps (Keeps.blanks hcs)

/-- A text in front whose tokens declare nothing. -/
theorem append {us : List (Lexeme Site)} (hus : ∀ t ∈ us, t.kind.isInert = true)
    (hkeeps : ∀ {ts}, Keeps F ts → Keeps G (us ++ ts)) (h : Completes F ps) : Completes G ps := by
  obtain ⟨body, closer, rest, hF, hcloser, hbody⟩ := h
  exact ⟨us ++ body, closer,
    rest, by rw [List.append_assoc]; exact hkeeps hF, hcloser, hbody.append hus⟩

/-- A text in front whose tokens, none of which is in a block, declare nothing. -/
theorem prepend {us : List (Lexeme Site)} (hread : Reads G (us ++ lexemes F))
    (hus : ∀ t ∈ us, t.kind.isInert = true) (h : Completes F ps) : Completes G ps :=
  h.append hus fun hF => hF.prepend hread fun t ht => (TokenKind.isInert_iff.1 (hus t ht)).2.2.2

/-- What reads as a text without malformed parts reads so in front of the rest of a module. -/
theorem reads (h : Completes F ps) : Reads F (lexemes F) := by
  obtain ⟨body, closer, rest, hF, -⟩ := h
  exact hF.reads

theorem lexeme {c : Char} {cs : List Char} {kind : TokenKind}
    (hmeasure : measure c (cs ++ F) = (.lexeme kind, cs.length)) (hkind : kind.isInert = true)
    (h : Completes F ps) : Completes (c :: cs ++ F) ps := by
  have hus : ∀ t ∈ [(⟨kind, ⟨c :: cs ++ F, F⟩⟩ : Lexeme Site)], t.kind.isInert = true := by
    simpa using hkind
  exact h.prepend (h.reads.lexeme hmeasure) hus

theorem single {c : Char} {kind : TokenKind} (hmeasure : measure c F = (.lexeme kind, 0))
    (hkind : kind.isInert = true) (h : Completes F ps) : Completes (c :: F) ps := by
  show Completes (c :: [] ++ F) ps
  exact h.lexeme hmeasure hkind

/-- A name in front of spaces and what is no word. -/
theorem name {name : List Char} (hname : IsName name) {k : Nat}
    (hk : name.head? = some '\\' → 0 < k)
    (hF : startsWith isWordChar F = false) (h : Completes F ps) :
    Completes (name ++ (List.replicate k ' ' ++ F)) ps := by
  have hus : ∀ t ∈
      [(⟨nameKind name, ⟨name ++ (List.replicate k ' ' ++ F), List.replicate k ' ' ++ F⟩⟩ :
      Lexeme Site)], t.kind.isInert = true := by
    intro t ht
    obtain rfl := List.mem_singleton.1 ht
    exact isInert_nameKind name
  exact h.prepend (h.reads.name hname hk hF) hus

/-- A string literal without escapes. -/
theorem string {cs : List Char} (hcs : ∀ c ∈ cs, c ≠ '"' ∧ c ≠ '\\' ∧ c ≠ '\n')
    (h : Completes F ps) :
    Completes ('"' :: (cs ++ '"' :: F)) ps := by
  have hend : stringEnd (cs ++ '"' :: F) = (cs.length + 1, true) := by
    induction cs with
    | nil => rfl
    | cons c cs ih =>
      obtain ⟨hquote, hescape, hnewline⟩ := hcs c (List.mem_cons_self ..)
      rw [List.cons_append, stringEnd_cons hescape, if_neg hnewline, if_neg hquote,
        ih fun d hd => hcs d (List.mem_cons_of_mem _ hd), List.length_cons]
  have hmeasure : measure '"' (cs ++ ['"'] ++ F) =
      (.lexeme .stringLiteral, (cs ++ ['"']).length) := by
    rw [List.append_assoc, List.singleton_append, List.length_append, List.length_singleton]
    show measureString _ = _
    rw [measureString, hend]
    rfl
  have := h.lexeme hmeasure rfl
  rwa [List.cons_append, List.append_assoc, List.singleton_append] at this

/-- A comment that ends with its line. -/
theorem comment {cs : List Char} (hcs : ∀ c ∈ cs, c ≠ '\n') (h : Completes ('\n' :: F) ps) :
    Completes ('/' :: '/' :: (cs ++ '\n' :: F)) ps := by
  have hrun : run (· != '\n') ('/' :: cs ++ '\n' :: F) = ('/' :: cs).length :=
    run_append_of_all (by simpa using hcs) rfl
  have hmeasure : measure '/' ('/' :: cs ++ '\n' :: F) = (.comment true, ('/' :: cs).length) := by
    rw [← hrun]
    rfl
  exact h.of_keeps (Keeps.skip hmeasure rfl rfl)

/-- A text in front that ends with a lexeme and declares nothing. -/
theorem filler {cs : List Char} (hcs : isFiller cs = true) (hF : MayReplace [] F)
    (h : Completes F ps) :
    Completes (cs ++ F) ps := by
  rw [isFiller, Bool.and_eq_true, List.all_eq_true] at hcs
  have hfaultless : ∀ s ∈ split cs, s.kind.isFault = false := by
    intro s hs
    have := hcs.1 s hs
    rcases s with ⟨_ | closed | _ | kind | fault, text⟩
    · rfl
    · cases closed
      · cases this
      · rfl
    · rfl
    · rfl
    · cases this
  have hinert : ∀ t ∈ (lexemes cs).map (Lexeme.map (Site.append F)), t.kind.isInert = true := by
    intro t ht
    obtain ⟨u, hu, rfl⟩ := List.mem_map.1 ht
    obtain ⟨s, hs, hkind⟩ := exists_segment_of_mem_lexemes hu
    have hsegment := hcs.1 s hs
    have hfault := hfaultless s hs
    rcases s with ⟨_ | closed | _ | kind | fault, text⟩
    · cases hkind
    · cases hkind
    · cases hkind
    · obtain rfl := Option.some.inj hkind
      exact hsegment
    · cases hfault
  have hlast : ∀ s, (split cs).getLast? = some s → s.Tolerates [] F := by
    intro s hs
    rw [hs] at hcs
    exact tolerates_of_isSettled hcs.2 [] F
  have hread : Reads cs (lexemes cs) := ⟨rfl, hfaultless⟩
  exact h.prepend (hread.append h.reads hF hlast) hinert

/-- A statement in front of the rest of a body. -/
theorem of_statement {body rest run : Outline.Tokens Site}
    {keyword name equals semicolon closer : Lexeme Site}
    (hG : Keeps G (keyword :: name :: equals :: (run ++ semicolon :: (body ++ closer :: rest))))
    (hcloser : closer.kind = .keyword .moduleClose)
    (hbody : Outline.Lists (keyword :: name :: equals :: (run ++ semicolon :: body)) ps) :
    Completes G ps :=
  ⟨_, closer, rest, by simpa using hG, hcloser, hbody⟩

/-- The declaration of a parameter, with some spaces behind its name and its value. -/
theorem parameter {source : List Char} {p : Parameter} (hp : p.Legible source) {k m : Nat}
    (hm : endsInEscapedName p.value.toList = true → 0 < m) (h : Completes F ps) :
    Completes ("parameter ".toList ++ (p.name.toList ++ (List.replicate k ' ' ++
      (" = ".toList ++ (p.value.toList ++ (List.replicate m ' ' ++ ';' :: F)))))) (p :: ps) := by
  obtain ⟨run, hrun, hwhole, hcloser⟩ := hp.value
  obtain ⟨i, j, run', rfl, hrun', hkinds, htolerates⟩ := hrun.exists_padded hm
  obtain ⟨body, closer, rest, hF, hend, hbody⟩ := h
  have hcut : p.value.toList ++ (List.replicate (i + j) ' ' ++ ';' :: F) =
      p.value.toList ++ List.replicate i ' ' ++ (List.replicate j ' ' ++ ';' :: F) := by
    rw [List.replicate_add, List.append_assoc, List.append_assoc]
  rw [hcut]
  generalize hv : p.value.toList ++ List.replicate i ' ' = v at hrun' htolerates
  -- from the semicolon back to the keyword
  have hsemicolon : Keeps (';' :: F) (⟨.semicolon, _⟩ :: (body ++ closer :: rest)) :=
    hF.single rfl fun b hb => nomatch hb
  have hspaces : Keeps (List.replicate j ' ' ++ ';' :: F) _ :=
    hsemicolon.blanks fun c => isAsciiBlank_of_mem_replicate
  have hvalue : Keeps (v ++ (List.replicate j ' ' ++ ';' :: F)) _ :=
    hspaces.excerpt hrun'
      (mayReplace_nil_spaces (.inr rfl) (by decide) rfl (by decide)) (htolerates F)
  have hequals : Keeps ('=' :: ' ' :: (v ++ (List.replicate j ' ' ++ ';' :: F)))
      (⟨.equals, _⟩ :: _) :=
    (hvalue.blank rfl).single rfl fun b hb => nomatch hb
  have hspace : List.replicate (k + 1) ' ' ++ '=' :: ' ' ::
      (v ++ (List.replicate j ' ' ++ ';' :: F)) =
      List.replicate k ' ' ++ ' ' :: '=' :: ' ' :: (v ++ (List.replicate j ' ' ++ ';' :: F)) := by
    rw [List.replicate_succ', List.append_assoc]
    rfl
  have hname : Keeps (p.name.toList ++ (List.replicate k ' ' ++
      ' ' :: '=' :: ' ' :: (v ++ (List.replicate j ' ' ++ ';' :: F)))) (⟨nameKind _,
      ⟨_, _⟩⟩ :: _) :=
    hspace ▸ hequals.name hp.name.isName (fun _ => Nat.succ_pos k) rfl
  have hkeyword :
      Keeps ('p' :: "arameter".toList ++ ' ' :: (p.name.toList ++ (List.replicate k ' ' ++
      ' ' :: '=' :: ' ' ::
        (v ++ (List.replicate j ' ' ++ ';' :: F))))) (⟨.keyword .parameter, _⟩ :: _) :=
    (hname.blank rfl).lexeme rfl fun b hb => nomatch hb
  obtain ⟨value, hextent, htext⟩ := hrun'.exists_extent_append (List.replicate j ' ' ++ ';' :: F)
  have hkinds' : (run'.map (Lexeme.map (Site.append (List.replicate j ' ' ++ ';' :: F)))).map
      Lexeme.kind = run.map Lexeme.kind := by
    rw [List.map_map]
    exact hkinds
  refine of_statement hkeyword hend (hbody.statement rfl (isIdentifier_nameKind _) rfl rfl hextent
    (Outline.splitExpression_of_map_kind hkinds' hwhole)
    (Outline.noCloser_of_map_kind hkinds' hcloser) ?_)
  rw [Signature.parameterOf, htext, Site.text_mk_append, String.ofList_toList, Parameter.trimmed,
    Parameter.trimmed, String.toList_ofList, ← hv, Text.rdropWhile_append_spaces]

/-- Lines, each of which declares some parameters. -/
theorem lines {A : Type} {text : A → String} {params : A → List Parameter} {items : List A}
    (hitem : ∀ a ∈ items, ∀ {F ps}, Completes F ps →
      Completes ((text a).toList ++ F) (params a ++ ps))
    (h : Completes F ps) :
    Completes ((joinWith "\n" (items.map text)).toList ++ F) (items.flatMap params ++ ps) := by
  induction items with
  | nil => exact h
  | cons a items ih =>
    have hrest := ih fun b hb => hitem b (List.mem_cons_of_mem _ hb)
    rw [List.flatMap_cons, List.append_assoc]
    by_cases hnil : items = []
    · subst hnil
      exact hitem a (List.mem_cons_self ..) h
    · have hcut : (joinWith "\n" ((a :: items).map text)).toList ++ F =
          (text a).toList ++ (['\n'] ++ ((joinWith "\n" (items.map text)).toList ++ F)) := by
        rw [List.map_cons, joinWith_cons (by simpa using hnil), String.toList_append,
          String.toList_append]
        simp
      rw [hcut]
      exact hitem a (List.mem_cons_self ..) (hrest.blanks (by decide))

end Completes

/-! ## Modules -/

/-- Whether a text is a module of some name in which some parameters are declared, in order, and
nothing else. -/
def DeclaresModule (cs name : List Char) (ps : List Parameter) : Prop :=
  ∃ opener n body closer rest, Keeps cs (opener :: n :: (body ++ closer :: rest)) ∧
    opener.kind = .keyword .moduleOpen ∧ n.kind.isIdentifier = true ∧ n.place.text = name ∧
    closer.kind = .keyword .moduleClose ∧ Outline.Lists body ps

theorem Completes.module {F name : List Char} {ps : List Parameter} (h : Completes F ps)
    (hname : IsName name) (hplain : name.head? ≠ some '\\') :
    DeclaresModule ("module ".toList ++ (name ++ ';' :: F)) name ps := by
  obtain ⟨body, closer, rest, hF, hcloser, hbody⟩ := h
  have hsemicolon : Keeps (';' :: F) (⟨.semicolon, ⟨';' :: F, F⟩⟩ :: (body ++ closer :: rest)) :=
    hF.single rfl fun b hb => nomatch hb
  have hn := hsemicolon.name (k := 0) hname (fun hhead => absurd hhead hplain) rfl
  rw [List.replicate_zero, List.nil_append] at hn
  have hopener : Keeps ('m' :: "odule".toList ++ ' ' :: (name ++ ';' :: F))
      (⟨.keyword .moduleOpen, ⟨_, _⟩⟩ :: _) :=
    (hn.blank rfl).lexeme rfl fun b hb => nomatch hb
  have hinert : ∀ t ∈ [(⟨.semicolon, ⟨';' :: F, F⟩⟩ : Lexeme Site)], t.kind.isInert = true := by
    intro t ht
    obtain rfl := List.mem_singleton.1 ht
    rfl
  exact ⟨_, _, (⟨.semicolon, ⟨';' :: F, F⟩⟩ : Lexeme Site) :: body, closer, rest, hopener, rfl,
    isIdentifier_nameKind name, Site.text_mk_append name _, hcloser, hbody.append hinert⟩

/-- A text in front that changes nothing in what is left behind it. -/
theorem DeclaresModule.of_keeps {F G name : List Char} {ps : List Parameter}
    (h : DeclaresModule F name ps)
    (hkeeps : ∀ {ts}, Keeps F ts → Keeps G ts) : DeclaresModule G name ps := by
  obtain ⟨opener, n, body, closer, rest, hF, hrest⟩ := h
  exact ⟨opener, n, body, closer, rest, hkeeps hF, hrest⟩

/-- What a module says is extracted from it. -/
theorem DeclaresModule.exists_result {source : String} {name : List Char} {ps : List Parameter}
    (h : DeclaresModule source.toList name ps) (ha : Addressable source) :
    ∃ x qs, Extraction.ofSource? source = some x ∧
      x.result = .ok ⟨String.ofList name, qs, [], [], []⟩ ∧
      qs.map Parameter.trimmed = ps.map Parameter.trimmed := by
  obtain ⟨opener, n, body, closer, rest, hkeeps, hopener, hn, rfl, hcloser, hbody⟩ := h
  obtain ⟨x, hx⟩ := Extraction.exists_ofSource? ha
  have hname : n.kind ≠ .keyword .moduleClose := fun hkind => by
    rw [hkind] at hn
    cases hn
  have hcut : opener :: n :: (body ++ closer :: rest) = [] ++ opener ::
      (n :: body ++ closer :: rest) := rfl
  have hread : Outline.read source.toList = .ok ⟨n, Outline.readBody body⟩ := by
    rw [Outline.read, hkeeps.read, hcut,
      Outline.ofTokens_module (by simp [Outline.NoOpener]) hopener
      (Outline.noCloser_cons.2 ⟨hname, hbody.noCloser⟩) hcloser, Outline.ofBody, if_pos hn]
  refine ⟨x, _, hx, ?_, hbody.parameters⟩
  rw [Extraction.result_of_read ha hx hread, Signature.ofSites, hbody.ports,
    hbody.ports, hbody.ports]
  rfl

end VerilogScaffold
