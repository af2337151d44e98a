import VerilogScaffold.Proofs.Reach

/-!
# Words in front of port names

A port clause may name a type before its ports: `input pkg_t cfg`. Nothing but the tokens behind a
word tells whether it is a type or a port, and the scan looks at one of them. In front of a name a
word is a type, and the clause declares exactly the names (`Extraction.ports_typedClause`).

With a range between, as in `input bit [7:0] d`, the word has a bracket behind it. The scan then
takes it for a port with dimensions, or, if it is a macro, for the end of the clause, and the names
are stepped over: `TypedClause.reaches_ranged` says so for every range, and `ofSource_typedRange` is
the source above.
-/

namespace VerilogScaffold

open Outline

/-- A clause of a direction, a word, square brackets, and names. -/
structure TypedClause (P : Type) where
  direction : Direction
  keyword : Header.Mark P (.keyword (.direction direction))
  word : {t : Lexeme P // t.kind.isTypeWord = true}
  groups : List (Header.Group P)
  names : Header.Separated P (Header.Name P)

namespace TypedClause

variable {P : Type} {body rest : Tokens P} {found : List (Finding P)}

/-- The names of a clause and the commas between them. -/
def nameTokens (c : TypedClause P) : Tokens P := c.names.tokens fun n => [n.1]

def tokens (c : TypedClause P) : Tokens P :=
  c.keyword.1 :: c.word.1 :: (c.groups.flatMap Header.Group.tokens ++ c.nameTokens)

/-- What ends such a clause: a semicolon, a closing parenthesis, or a comma in front of a
direction. -/
def Ends (rest : Tokens P) : Prop :=
  ∃ t after, rest = t :: after ∧ (t.kind = .semicolon ∨ t.kind = .closing .paren ∨
    t.kind = .comma ∧ ∃ u us, after = u :: us ∧ u.kind.isDirection = true)

theorem Ends.endsClause (h : Ends rest) : Header.EndsClause rest := by
  obtain ⟨t, after, rfl, ht | ht | ⟨ht, u, us, rfl, hu⟩⟩ := h
  · exact Header.endsClause_of_kind (.inr ht) after
  · exact Header.endsClause_of_kind (.inl ht) after
  · have hname : u.kind.isIdentifier = false := by
      cases hkind : u.kind with
      | identifier | escapedIdentifier =>
        rw [hkind] at hu
        cases hu
      | _ => rfl
    exact ⟨⟨t, _, rfl, .inl ht⟩, by rw [continuesPorts, hname, Bool.and_false]⟩

/-- A port without dimensions and default. -/
def bare (n : Header.Name P) : Header.PortItem P := ⟨n, [], none⟩

/-- The clause as one of the header grammar, where nothing stands between the word and the names. -/
def portClause (c : TypedClause P) : Header.PortClause P where
  direction := c.direction
  keyword := c.keyword
  type := [.word c.word]
  items := ⟨bare c.names.first, c.names.more.map fun x => (x.1, bare x.2)⟩
  leads := by
    intro before word after htype
    rcases before with _ | ⟨part, before⟩
    · obtain ⟨-, rfl⟩ := List.cons.inj htype
      exact ⟨_, _, rfl, .inl c.names.first.2⟩
    · simp at htype

theorem tokens_portClause {c : TypedClause P} (hgroups : c.groups = []) :
    c.portClause.tokens = c.tokens := by
  simp [Header.PortClause.tokens, tokens, portClause, hgroups, nameTokens, Header.Separated.tokens,
    Header.TypePart.tokens, Header.PortItem.tokens, Header.PortItem.tail, bare, List.flatMap_map]

/-- The findings for the names of a clause: ports without a range. -/
def namedPorts (c : TypedClause P) : List (Finding P) :=
  c.names.items.map fun n => .port c.direction n.1 none

theorem findings_portClause (c : TypedClause P) : c.portClause.findings = c.namedPorts := by
  have hrange : Header.range c.portClause.type = none := rfl
  rw [Header.PortClause.findings, hrange]
  simp [portClause, namedPorts, Header.Separated.items, Header.PortItem.findings, portFindings,
    bare, List.flatMap_map, ← List.map_eq_flatMap]

/-- A word in front of a name is a type: the scan finds the names, and comes to what ends the
clause. -/
theorem reaches_unranged {c : TypedClause P} (hgroups : c.groups = []) (hrest : Ends rest)
    (h : Reaches body found (c.tokens ++ rest)) : Reaches body (found ++ c.namedPorts) rest := by
  have hclause := c.portClause.portClause_append hrest.endsClause
  rw [← tokens_portClause hgroups, Header.PortClause.tokens, List.cons_append] at h
  have hstep := h.port c.portClause.keyword.2
  rwa [hclause, findings_portClause] at hstep

/-- No type is read where a bracket stands behind a word. -/
theorem splitType_ranged (c : TypedClause P) (hgroups : c.groups ≠ []) (rest : Tokens P) :
    splitType none (c.word.1 :: (c.groups.flatMap Header.Group.tokens ++ rest)) =
      (none, c.word.1 :: (c.groups.flatMap Header.Group.tokens ++ rest)) := by
  obtain ⟨g, gs, hg⟩ := List.exists_cons_of_ne_nil hgroups
  obtain ⟨word, hword⟩ := c.word
  have hopen : word.kind ≠ .opening .square := by
    intro hkind
    rw [hkind] at hword
    cases hword
  have hqualifier : word.kind.isQualifier = false := by
    cases hkind : word.kind with
    | identifier | macroUsage => rfl
    | _ =>
      rw [hkind] at hword
      cases hword
  have hname : isTypeName word.kind (c.groups.flatMap Header.Group.tokens ++ rest) = false := by
    rw [hg, List.flatMap_cons, Header.Group.tokens, List.append_assoc, List.cons_append, isTypeName,
      g.opening.2, hword]
    rfl
  rw [splitType, if_neg hopen, hqualifier, hname]
  rfl

/-- What the scan makes of a clause with a range behind its word: the word is a port if it is a
name, and otherwise there is none. -/
def misread (c : TypedClause P) : List (Finding P) :=
  if c.word.1.kind.isIdentifier then [.port c.direction c.word.1 none]
  else [.remark (.noPorts c.direction c.keyword.1 none)]

/-- What the scan has still to read then. -/
def unread (c : TypedClause P) : Tokens P :=
  if c.word.1.kind.isIdentifier then c.nameTokens
  else c.word.1 :: (c.groups.flatMap Header.Group.tokens ++ c.nameTokens)

theorem portClause_ranged (c : TypedClause P) (hgroups : c.groups ≠ []) (rest : Tokens P) :
    Outline.portClause c.direction c.keyword.1
        (c.word.1 :: (c.groups.flatMap Header.Group.tokens ++ (c.nameTokens ++ rest))) =
      (c.misread, c.unread ++ rest) := by
  have hnames : ∃ n after, c.nameTokens ++ rest = n :: after ∧ n.kind.isIdentifier = true :=
    ⟨_, _, rfl, c.names.first.2⟩
  obtain ⟨n, after, hn, hname⟩ := hnames
  have hkind : n.kind ≠ .opening .square ∧ n.kind ≠ .equals ∧ n.kind ≠ .comma := by
    rcases TokenKind.eq_of_isIdentifier hname with h | h <;> simp [h]
  rw [portClause_eq, c.splitType_ranged hgroups, portNames]
  by_cases hword : c.word.1.kind.isIdentifier = true
  · -- the brackets are taken for dimensions, and the first name ends the clause
    have htail : portTail (c.groups.flatMap Header.Group.tokens ++ (c.nameTokens ++ rest)) =
        (false, c.nameTokens ++ rest) := by
      rw [portTail, hn, Header.skipGroups_append c.groups hkind.1]
      simp [hkind.2.1]
    have hends : continuesPorts (c.nameTokens ++ rest) = false := by
      rw [hn]
      rcases after with _ | ⟨u, us⟩
      · rfl
      · simp [continuesPorts, hkind.2.2]
    simp [hword, htail, hends, misread, unread, portFindings]
  · simp [hword, misread, unread]

/-- A word in front of a range is no type: the scan misreads the clause, and steps over its
names. -/
theorem reaches_ranged {c : TypedClause P} (hgroups : c.groups ≠ [])
    (h : Reaches body found (c.tokens ++ rest)) :
    Reaches body (found ++ c.misread) (c.unread ++ rest) := by
  have htokens : c.tokens ++ rest = c.keyword.1 :: (c.word.1 ::
      (c.groups.flatMap Header.Group.tokens ++ (c.nameTokens ++ rest))) := by
    simp [tokens]
  rw [htokens] at h
  have hstep := h.port c.keyword.2
  rwa [c.portClause_ranged hgroups] at hstep

end TypedClause

namespace Extraction

variable {source : String} {s : Signature} {body rest : Tokens Span} {found : List (Finding Span)}

/-- What the names of a clause declare: ports of its direction, without a range. -/
theorem portsOf?_namedPorts (c : TypedClause Span) (d : Direction) :
    portsOf? source d c.namedPorts =
      if d = c.direction then
        (c.names.items.mapM fun n : Header.Name Span => n.1.span.text? source).map
          (List.map fun n => ⟨n, ""⟩)
      else some [] := by
  rw [portsOf?, TypedClause.namedPorts, List.filterMap_map]
  by_cases hd : d = c.direction
  · have hports : c.names.items.filterMap (Finding.port? d ∘ fun n => .port c.direction n.1 none) =
        c.names.items.map fun n => (n.1, none) := by
      rw [← List.filterMap_eq_map]
      congr 1
      funext n
      exact if_pos hd.symm
    rw [if_pos hd, hports]
    refine mapM_map_eq (fun n => ?_) c.names.items
    rw [Signature.portAt?]
    rcases n.1.span.text? source with _ | name <;> rfl
  · rw [if_neg hd, List.filterMap_eq_nil_iff.2]
    · rfl
    · intro n _
      exact if_neg (Ne.symm hd)

/-- **A type word is not a port.** Wherever the scan of a body comes to a clause of a direction, a
word in front of names, and what ends it, the clause declares exactly the names, without a range,
between the ports found before it and those found behind it. -/
theorem ports_typedClause (ha : Addressable source) (hs : (ofSource source).result = .ok s)
    (hbody : HasBody (keptTokens source) body) {c : TypedClause Span} (hgroups : c.groups = [])
    (hrest : TypedClause.Ends rest) (h : Reaches body found (c.tokens ++ rest)) :
    ∃ names, c.names.items.mapM (fun n => n.1.span.text? source) = some names ∧
      ∀ d, ∃ earlier later, portsOf? source d found = some earlier ∧
        portsOf? source d (readBody rest) = some later ∧
        s.ports d = earlier ++
          (if d = c.direction then names.map fun n => ⟨n, ""⟩ else []) ++ later := by
  -- what is found before the clause, the names of the clause, and what is found behind it
  have hparts : ∀ d, ∃ earlier ports later, portsOf? source d found = some earlier ∧
      portsOf? source d c.namedPorts = some ports ∧ portsOf? source d (readBody rest) = some later ∧
      s.ports d = earlier ++ ports ++ later := by
    intro d
    have hreach := TypedClause.reaches_unranged hgroups hrest h
    obtain ⟨before, later, hbefore, hlater, hports⟩ := ports_of_reaches ha hs hbody hreach d
    rw [portsOf?_append] at hbefore
    obtain ⟨earlier, hearlier, hbefore⟩ := Option.bind_eq_some_iff.1 hbefore
    obtain ⟨ports, hnamed, rfl⟩ := Option.map_eq_some_iff.1 hbefore
    exact ⟨earlier, ports, later, hearlier, hnamed, hlater, hports⟩
  obtain ⟨-, ports, -, -, hports, -, -⟩ := hparts c.direction
  rw [portsOf?_namedPorts, if_pos rfl] at hports
  obtain ⟨names, hnames, -⟩ := Option.map_eq_some_iff.1 hports
  refine ⟨names, hnames, fun d => ?_⟩
  obtain ⟨earlier, ports, later, hearlier, hports, hlater, hall⟩ := hparts d
  refine ⟨earlier, later, hearlier, hlater, ?_⟩
  rw [portsOf?_namedPorts, hnames] at hports
  rw [hall]
  split at hports
  · obtain rfl := Option.some.inj hports
    rw [if_pos ‹_›]
  · obtain rfl := Option.some.inj hports
    rw [if_neg ‹_›]

/-- The clause of `module m(input word_t a, b, output c); endmodule`, and the scan in front of
it. -/
def sampleClause : TypedClause Span where
  direction := .input
  keyword := ⟨⟨.keyword (.direction .input), ⟨9, 14⟩⟩, rfl⟩
  word := ⟨⟨.identifier, ⟨15, 21⟩⟩, rfl⟩
  groups := []
  names := ⟨⟨⟨.identifier, ⟨22, 23⟩⟩, rfl⟩,
    [(⟨⟨.comma, ⟨23, 24⟩⟩, rfl⟩, ⟨⟨.identifier, ⟨25, 26⟩⟩, rfl⟩)]⟩

theorem ports_sampleClause :
    ∃ s earlier later,
    (ofSource "module m(input word_t a, b, output c); endmodule").result = .ok s ∧
      s.inputs = earlier ++ [⟨"a", ""⟩, ⟨"b", ""⟩] ++ later := by
  have hresult : (ofSource "module m(input word_t a, b, output c); endmodule").result =
      .ok ⟨"m", [], [⟨"a", ""⟩, ⟨"b", ""⟩], [⟨"c", ""⟩], []⟩ := by
    rw [ofSource, ofSource?_eq_ofLexing?]
    cbv
  have hbody : HasBody (keptTokens "module m(input word_t a, b, output c); endmodule")
      ([⟨.opening .paren, ⟨8, 9⟩⟩] ++ (sampleClause.tokens ++ [⟨.comma, ⟨26, 27⟩⟩,
        ⟨.keyword (.direction .output), ⟨28, 34⟩⟩, ⟨.identifier, ⟨35, 36⟩⟩,
        ⟨.closing .paren, ⟨36, 37⟩⟩, ⟨.semicolon, ⟨37, 38⟩⟩])) :=
    ⟨[], ⟨.keyword .moduleOpen, ⟨0, 6⟩⟩, ⟨.identifier, ⟨7, 8⟩⟩, ⟨.keyword .moduleClose, ⟨39, 48⟩⟩,
      [⟨.eof, ⟨48, 48⟩⟩], by cbv, by simp [NoOpener], rfl, by
        simp [NoCloser, sampleClause, TypedClause.tokens, TypedClause.nameTokens,
          Header.Separated.tokens], rfl⟩
  obtain ⟨names, hnames, hports⟩ := ports_typedClause (by decide) hresult hbody rfl
    ⟨_, _, rfl, .inr (.inr ⟨rfl, _, _, rfl, rfl⟩)⟩ (reaches_of_not_opensClause (by decide) _)
  obtain rfl : ["a", "b"] = names := Option.some.inj ((by cbv : some ["a", "b"] = _).trans hnames)
  obtain ⟨earlier, later, -, -, hinputs⟩ := hports .input
  exact ⟨_, earlier, later, hresult, hinputs⟩

/-- With a range behind it, a type word is taken for a port, and the port itself is lost without a
diagnostic. -/
theorem ofSource_typedRange :
    ofSource "module m(input bit [7:0] d); endmodule" =
      ⟨.ok ⟨"m", [], [⟨"bit", ""⟩], [], []⟩, []⟩ := by
  rw [ofSource, ofSource?_eq_ofLexing?]
  cbv

end Extraction

end VerilogScaffold
