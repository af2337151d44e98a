import VerilogScaffold.Proofs.Excerpt

/-!
# Connection lists name what was extracted

The lists that connect an instance are read back as what they are meant to be: for each port, or for
each parameter, a point, its name, and its name in parentheses, with one comma between neighbours
(`Extraction.tokens_connections`).

An escaped name has to be followed by a blank. The renderer looks for a Unicode blank at the end of
the name, and the lexer ends the name at an ASCII blank, so a name that ends in a no-break space
gets no space from the one and is not ended by the other. Only the filling of the column can still
help, if the name is not the longest. `Block.Separable` is the condition that it does, and
`tokens_portConnection_inseparable` shows what is read where it does not.
-/

namespace VerilogScaffold

open Text Segment

/-! ## Texts by the words they spell -/

/-- The kind of a token and what it says. -/
def Lexeme.word (t : Lexeme Site) : TokenKind × String := (t.kind, String.ofList t.place.text)

/-- Whether some words stand in a text in front of other tokens, and nothing in the text is
malformed. -/
def Spells (later : List (Lexeme Site)) (cs : List Char) (ws : List (TokenKind × String)) : Prop :=
  ∃ ts, Reads cs (ts ++ later) ∧ ts.map Lexeme.word = ws

namespace Spells

variable {F : List Char} {later : List (Lexeme Site)} {ws : List (TokenKind × String)}

theorem nil (h : Reads F later) : Spells later F [] := ⟨[], h, rfl⟩

theorem blanks {cs : List Char} (hcs : ∀ c ∈ cs, isAsciiBlank c = true) (h : Spells later F ws) :
    Spells later (cs ++ F) ws := by
  obtain ⟨ts, hts, rfl⟩ := h
  exact ⟨ts, hts.blanks hcs, rfl⟩

/-- A mark of one character that never joins another. -/
theorem mark {c : Char} {kind : TokenKind} (hc : ∀ G, Segment.measure c G = (.lexeme kind, 0))
    (h : Spells later F ws) : Spells later (c :: F) ((kind, String.ofList [c]) :: ws) := by
  obtain ⟨ts, hts, rfl⟩ := h
  have htext : (⟨c :: F, F⟩ : Site).text = [c] := Site.text_mk_append [c] F
  refine ⟨_ :: ts, hts.mark hc, ?_⟩
  rw [List.map_cons, Lexeme.word, htext]

theorem name {name : String} (hname : IsName name.toList) {k : Nat}
    (hk : name.toList.head? = some '\\' → 0 < k) (hF : startsWith isWordChar F = false)
    (h : Spells later F ws) :
    Spells later (name.toList ++ (List.replicate k ' ' ++ F))
      ((nameKind name.toList, name) :: ws) := by
  obtain ⟨ts, hts, rfl⟩ := h
  refine ⟨_ :: ts, hts.name hname hk hF, ?_⟩
  rw [List.map_cons, Lexeme.word, Site.text_mk_append, String.ofList_toList]

/-- What a text spells is what the lexer finds in it. -/
theorem tokens_ofSource {source : String} (h : Spells [] source.toList ws)
    (ha : Addressable source) :
    (Lexing.ofSource source).diagnostics = [] ∧
      (Lexing.ofSource source).tokens.map (fun t => (t.kind, t.span.text? source)) =
        ws.map (fun w => (w.1, some w.2)) ++ [(.eof, some "")] := by
  obtain ⟨ts, ⟨htokens, hfaultless⟩, rfl⟩ := h
  rw [List.append_nil] at htokens
  subst htokens
  refine ⟨diagnostics_eq_nil_iff.2 hfaultless, ?_⟩
  have hend : (⟨source.utf8ByteSize, source.utf8ByteSize⟩ : Stretch).span.text?
      source = some "" := by
    have hsite : Site.LiesOn ⟨[], []⟩ source.toList := ⟨List.nil_suffix, List.nil_suffix⟩
    have := hsite.text?_span ha
    rwa [byteLength_toList] at this
  rw [VerilogScaffold.tokens_ofSource, lexemesFrom_zero, List.map_append, List.map_map,
    List.map_map, List.map_map]
  congr 1
  · refine List.map_congr_left fun t ht => ?_
    exact congrArg (Prod.mk t.kind) ((liesOn_of_mem_lexemes ht).text?_span ha)
  · exact congrArg (fun text => [(TokenKind.eof, text)]) hend

end Spells

/-! ## Connections -/

/-- The words of a connection of a name to the signal of the same name. -/
def connectionWords (name : String) : List (TokenKind × String) :=
  [(.operator, "."), (nameKind name.toList, name), (.opening .paren, "("),
    (nameKind name.toList, name), (.closing .paren, ")")]

/-- Lists of words with a comma between neighbours. -/
def commaSeparated (groups : List (List (TokenKind × String))) : List (TokenKind × String) :=
  [(.comma, ",")].intercalate groups

theorem commaSeparated_cons {g : List (TokenKind × String)}
    {groups : List (List (TokenKind × String))}
    (h : groups ≠ []) :
    commaSeparated (g :: groups) = g ++ (.comma, ",") :: commaSeparated groups := by
  rw [commaSeparated, List.intercalate_cons_of_ne_nil h, List.append_assoc]
  rfl

theorem commaSeparated_append {xs ys : List (List (TokenKind × String))} (hxs : xs ≠ [])
    (hys : ys ≠ []) :
    commaSeparated (xs ++ ys) = commaSeparated xs ++ (.comma, ",") :: commaSeparated ys := by
  induction xs with
  | nil => exact absurd rfl hxs
  | cons x xs ih =>
    by_cases hnil : xs = []
    · rw [hnil, List.singleton_append, commaSeparated_cons hys, commaSeparated, commaSeparated,
        List.intercalate_singleton]
    · rw [List.cons_append, commaSeparated_cons (List.append_ne_nil_of_left_ne_nil hnil ys),
        ih hnil, commaSeparated_cons hnil, List.append_assoc, List.cons_append]

/-- A list of lists is separated like the items of all of them, if none is empty. -/
theorem commaSeparated_flatten {groups : List (List (List (TokenKind × String)))}
    (h : ∀ g ∈ groups, g ≠ []) :
    commaSeparated (groups.map commaSeparated) = commaSeparated groups.flatten := by
  induction groups with
  | nil => rfl
  | cons g groups ih =>
    have hrest := ih fun g hg => h g (List.mem_cons_of_mem _ hg)
    by_cases hnil : groups = []
    · simp [hnil, commaSeparated]
    · have hne : groups.flatten ≠ [] := by
        obtain ⟨g', hg'⟩ := List.exists_mem_of_ne_nil groups hnil
        intro hflatten
        exact h g' (List.mem_cons_of_mem _ hg') (List.flatten_eq_nil_iff.1 hflatten g' hg')
      rw [List.map_cons, commaSeparated_cons (by simpa using hnil), hrest, List.flatten_cons,
        commaSeparated_append (h g (List.mem_cons_self ..)) hne]

namespace Spells

variable {F : List Char} {later : List (Lexeme Site)} {ws : List (TokenKind × String)}

theorem connection {width : Nat} {name : String} (hname : IsName name.toList)
    (hwidth : TakenForTerminated name → name.length < width) (h : Spells later F ws) :
    Spells later ((Block.connection width (terminatedName name)).toList ++ F)
      (connectionWords name ++ ws) := by
  obtain ⟨k, hpadded, hk⟩ := exists_toList_padRight_terminatedName width name
  have htext : (Block.connection width (terminatedName name)).toList ++ F =
      [' ', ' ', ' ', ' '] ++ ('.' :: (name.toList ++ (List.replicate k ' ' ++
        '(' :: (name.toList ++ (List.replicate k ' ' ++ ')' :: F))))) := by
    simp only [Block.connection, String.toList_append, hpadded, List.append_assoc]
    rfl
  have hk' : name.toList.head? = some '\\' → 0 < k := fun hhead => hk hhead hwidth
  rw [htext]
  refine Spells.blanks (by decide) (.mark (fun _ => rfl) ?_)
  refine Spells.name hname hk' rfl (.mark (fun _ => rfl) ?_)
  exact Spells.name hname hk' rfl (.mark (fun _ => rfl) h)

/-- A list with commas, each followed by blanks, between its items. -/
theorem joinWith {A : Type} {text : A → String} {words : A → List (TokenKind × String)}
    {separator : String} {blanks : List Char} (hseparator : separator.toList = ',' :: blanks)
    (hblanks : ∀ c ∈ blanks, isAsciiBlank c = true) {items : List A}
    (hitem : ∀ a ∈ items, ∀ {F ws}, Spells later F ws →
      Spells later ((text a).toList ++ F) (words a ++ ws))
    (h : Spells later F ws) :
    Spells later ((Text.joinWith separator (items.map text)).toList ++ F)
      (commaSeparated (items.map words) ++ ws) := by
  induction items with
  | nil => exact h
  | cons a items ih =>
    have hrest := ih fun b hb => hitem b (List.mem_cons_of_mem _ hb)
    by_cases hnil : items = []
    · have := hitem a (List.mem_cons_self ..) h
      simpa [hnil, Text.joinWith, commaSeparated] using this
    · have hcut : (Text.joinWith separator ((a :: items).map text)).toList ++ F =
          (text a).toList ++ (',' :: (blanks ++
            ((Text.joinWith separator (items.map text)).toList ++ F))) := by
        rw [List.map_cons, joinWith_cons (by simpa using hnil), String.toList_append,
          String.toList_append, hseparator]
        simp
      have hwords : commaSeparated ((a :: items).map words) ++ ws =
          words a ++ ((.comma, ",") :: (commaSeparated (items.map words) ++ ws)) := by
        rw [List.map_cons, commaSeparated_cons (by simpa using hnil), List.append_assoc,
          List.cons_append]
      rw [hcut, hwords]
      exact hitem a (List.mem_cons_self ..) (.mark (fun _ => rfl) (.blanks hblanks hrest))

end Spells

namespace Block

/-- Whether no name in a column is taken for terminated, unless the filling of the column ends
it. -/
def Separable (names : List String) : Prop :=
  ∀ name ∈ names, TakenForTerminated name → name.length < widest (names.map terminatedName)

instance (names : List String) : Decidable (Separable names) :=
  inferInstanceAs (Decidable (∀ _ ∈ _, _))

/-- The words of a list of parameter overrides; no parameters, no words. -/
def definitionWords (names : List String) : List (TokenKind × String) :=
  if names.isEmpty then []
  else (.hash, "#") :: (.opening .paren, "(") ::
    (commaSeparated (names.map connectionWords) ++ [(.closing .paren, ")")])

theorem spells_parameterDefinition {cs F : List Char} {later : List (Lexeme Site)}
    (hF : Reads F later) {ps : List Parameter} (hps : ∀ p ∈ ps, NamedIn cs p.name)
    (hseparable : Separable (ps.map Parameter.name)) :
    Spells later ((parameterDefinition ps).toList ++ F)
      (definitionWords (ps.map Parameter.name)) := by
  by_cases hnil : ps = []
  · rw [hnil]
    exact Spells.nil hF
  · have hempty : ps.isEmpty = false := by simpa using hnil
    have hcut : (parameterDefinition ps).toList ++ F =
        '#' :: '(' :: (['\n'] ++ ((joinWith ",\n" ((ps.map Parameter.name).map
          fun n => connection (widest (ps.map Parameter.writtenName)) (terminatedName n))).toList ++
            (['\n'] ++ ')' :: F))) := by
      simp only [parameterDefinition, hempty, parameterConnections, List.map_map,
        Bool.false_eq_true, if_false, String.toList_append, List.append_assoc]
      rfl
    have hnames : (ps.map Parameter.name).isEmpty = false := by simpa using hnil
    rw [hcut, definitionWords, hnames]
    refine .mark (fun _ => rfl) (.mark (fun _ => rfl) (.blanks (by decide) ?_))
    refine Spells.joinWith (show String.toList ",\n" = ',' :: ['\n'] from rfl) (by decide)
      (fun n hn => ?_) (.blanks (by decide) (.mark (fun _ => rfl) (.nil hF)))
    intro F ws hF
    obtain ⟨p, hp, rfl⟩ := List.mem_map.1 hn
    refine Spells.connection (hps p hp).isName (fun htaken => ?_) hF
    have := hseparable p.name hn htaken
    rwa [List.map_map] at this

/-- The ports of the directions that have any. -/
theorem flatten_filter_isEmpty {A : Type} (groups : List (List A)) :
    (groups.filter (!·.isEmpty)).flatten = groups.flatten := by
  induction groups with
  | nil => rfl
  | cons g groups ih =>
    rcases g with _ | ⟨a, g⟩
    · simpa using ih
    · simp [ih]

theorem spells_portConnection {cs F : List Char} {later : List (Lexeme Site)} (hF : Reads F later)
    {s : Signature} (hs : s.Named cs) (hseparable : Separable (s.allPorts.map Port.name)) :
    Spells later ((portConnection s).toList ++ F)
      (commaSeparated ((s.allPorts.map Port.name).map connectionWords)) := by
  -- the directions that have ports, each with the names of its ports
  let groups := (Direction.all.map fun d => (s.ports d).map Port.name).filter (!·.isEmpty)
  have hflatten : groups.flatten = s.allPorts.map Port.name := by
    rw [flatten_filter_isEmpty, Signature.allPorts, List.map_flatMap, List.flatMap_def]
  have hentry : portConnection s = joinWith ",\n\n" (groups.map fun g => joinWith ",\n" (g.map
      fun n => connection (widest (s.allPorts.map Port.writtenName)) (terminatedName n))) := by
    simp only [portConnection, portConnections, groups, List.filter_map, List.map_map,
      Function.comp_def, List.isEmpty_map]
    rfl
  have hwords : commaSeparated (groups.map fun g => commaSeparated (g.map connectionWords)) =
      commaSeparated ((s.allPorts.map Port.name).map connectionWords) := by
    rw [← hflatten, List.map_flatten, ← commaSeparated_flatten, List.map_map]
    · rfl
    · intro g hg
      obtain ⟨names, hnames, rfl⟩ := List.mem_map.1 hg
      simpa using (List.mem_filter.1 hnames).2
  rw [hentry, ← hwords, ← List.append_nil (commaSeparated _)]
  refine Spells.joinWith (show String.toList ",\n\n" = ',' :: ['\n', '\n'] from rfl) (by decide)
    (fun g hg => ?_) (.nil hF)
  intro F ws hF
  refine Spells.joinWith (show String.toList ",\n" = ',' :: ['\n'] from rfl) (by decide)
    (fun n hn => ?_) hF
  intro F ws hF
  have hmem : n ∈ s.allPorts.map Port.name := hflatten ▸ List.mem_flatten.2 ⟨g, hg, hn⟩
  obtain ⟨p, hp, rfl⟩ := List.mem_map.1 hmem
  obtain ⟨d, hd⟩ := Signature.mem_allPorts.1 hp
  refine Spells.connection (hs.ports d p hd).isName (fun htaken => ?_) hF
  have := hseparable p.name hmem htaken
  rwa [List.map_map] at this

end Block

/-- Whether lexing a text reports nothing and yields some words and the end of the text. -/
def Lexing.Yields (text : String) (ws : List (TokenKind × String)) : Prop :=
  (Lexing.ofSource text).diagnostics = [] ∧
    (Lexing.ofSource text).tokens.map (fun t => (t.kind, t.span.text? text)) =
      ws.map (fun w => (w.1, some w.2)) ++ [(.eof, some "")]

namespace Extraction

/-- **Connection lists name what was extracted.** The list of port connections and the list of
parameter overrides are read back as one connection for each port and each parameter, in order, with
one comma between neighbours. -/
theorem tokens_connections {source : String} (ha : Addressable source) {x : Extraction}
    (hx : ofSource? source = some x) {s : Signature} (hs : x.result = .ok s) :
    (Block.Separable (s.allPorts.map Port.name) →
      Addressable (Placeholder.portConnection.expand s) →
      Lexing.Yields (Placeholder.portConnection.expand s)
        (commaSeparated ((s.allPorts.map Port.name).map connectionWords))) ∧
    (Block.Separable (s.parameters.map Parameter.name) →
      Addressable (Placeholder.parameterDefinition.expand s) →
      Lexing.Yields (Placeholder.parameterDefinition.expand s)
        (Block.definitionWords (s.parameters.map Parameter.name))) := by
  have hnamed := named ha hx hs
  refine ⟨fun hseparable hout => ?_, fun hseparable hout => ?_⟩
  · have := Block.spells_portConnection Reads.nil hnamed hseparable
    rw [List.append_nil] at this
    exact this.tokens_ofSource hout
  · have := Block.spells_parameterDefinition Reads.nil hnamed.parameters hseparable
    rw [List.append_nil] at this
    exact this.tokens_ofSource hout

/-- An escaped name and a plain one in a column. -/
theorem tokens_connections_escaped :
    Lexing.Yields "    .\\a (\\a ),\n\n    .b  (b  )"
        [(.operator, "."), (.escapedIdentifier, "\\a"), (.opening .paren, "("),
          (.escapedIdentifier, "\\a"), (.closing .paren, ")"), (.comma, ","), (.operator, "."),
          (.identifier, "b"), (.opening .paren, "("), (.identifier, "b"), (.closing .paren, ")")] ∧
      Lexing.Yields "#(\n    .W(W)\n)"
        [(.hash, "#"), (.opening .paren, "("), (.operator, "."), (.identifier, "W"),
          (.opening .paren, "("), (.identifier, "W"), (.closing .paren, ")"),
          (.closing .paren, ")")] := by
  have hresult : (ofSource "module m #(parameter W = 8)(input \\a , output b); endmodule").result =
      .ok ⟨"m", [⟨"W", "8"⟩], [⟨"\\a", ""⟩], [⟨"b", ""⟩], []⟩ := by
    rw [ofSource, ofSource?_eq_ofLexing?]
    cbv
  obtain ⟨x, hx, hs⟩ := ofSource?_of_result_ok hresult
  obtain ⟨hports, hparameters⟩ := tokens_connections (by decide) hx hs
  exact ⟨hports (by decide) (by decide), hparameters (by decide) (by decide)⟩

/-- A name that ends in a no-break space gets no space, and takes the rest of the connection with
it. -/
theorem tokens_portConnection_inseparable :
    ∃ x s, ofSource? "module m(input \\a\u00a0 ); endmodule" = some x ∧ x.result = .ok s ∧
      s.inputs = [⟨"\\a\u00a0", ""⟩] ∧
      (Lexing.ofSource (Placeholder.portConnection.expand s)).tokens.map
          (fun t => (t.kind, t.span.text? (Placeholder.portConnection.expand s))) =
        [(.operator, some "."), (.escapedIdentifier, some "\\a\u00a0(\\a\u00a0)"),
          (.eof, some "")] := by
  have hresult : (ofSource "module m(input \\a\u00a0 ); endmodule").result =
      .ok ⟨"m", [], [⟨"\\a\u00a0", ""⟩], [], []⟩ := by
    rw [ofSource, ofSource?_eq_ofLexing?]
    cbv
  obtain ⟨x, hx, hs⟩ := ofSource?_of_result_ok hresult
  refine ⟨x, _, hx, hs, rfl, ?_⟩
  cbv

end Extraction

end VerilogScaffold
