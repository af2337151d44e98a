import Mathlib
import VerilogScaffold.Proofs.Line
import VerilogScaffold.Proofs.Reading

/-!
# Subprogram blocks are invisible

A task or a function between two statements of a source changes nothing of what extraction makes of
it, whatever stands inside: ports, parameters, `module` and `endmodule`, or the keywords of the
other kind of block (`ofSource?_insert_block`).

## Shape of the argument

The text falls into a part before the block, which ends with a semicolon and leaves no block open,
the block, and a part after it. Stripping takes the parts one by one and leaves nothing of the
block. With the block and without it the same tokens are left, then, and only the places of those
after it differ. `readBody_append_semicolon` keeps findings from reaching over the semicolon, so the
tokens of one finding are all from before the block or all from after it (`ofTokens_forall_or`). The
text between two such tokens is the same with the block and without, as long as the offsets of the
longer source fit the words of a span.
-/

namespace VerilogScaffold

variable {P : Type}

namespace Outline

variable {p q : P → Prop} {semicolon : Lexeme P} {ts us : Tokens P}

/-- A semicolon closes no module. -/
theorem NoCloser.append_semicolon (hts : NoCloser (ts ++ [semicolon])) (hus : NoCloser us) :
    NoCloser (ts ++ semicolon :: us) := by
  intro t ht
  rw [← List.singleton_append, ← List.append_assoc] at ht
  rcases List.mem_append.1 ht with ht | ht
  · exact hts t ht
  · exact hus t ht

/-- What a body holds stands before a semicolon of it or behind it, never on both sides. -/
theorem readBody_forall_or (hsemicolon : semicolon.kind = .semicolon) (hts : ∀ t ∈ ts, p t.place)
    (hus : ∀ t ∈ us, q t.place) {x : Finding P} (hx : x ∈ readBody (ts ++ semicolon :: us)) :
    x.Forall p ∨ x.Forall q := by
  rw [readBody_append_semicolon hsemicolon] at hx
  rcases List.mem_append.1 hx with hx | hx
  · exact .inl (readBody_forall hts hx)
  · exact .inr (readBody_forall hus hx)

/-- What an outline holds stands before a semicolon or behind it, never on both sides. -/
theorem ofTokens_forall_or (hsemicolon : semicolon.kind = .semicolon)
    (hts : ∀ t ∈ ts ++ [semicolon], p t.place) (hus : ∀ t ∈ us, q t.place) {o : Outline P}
    (ho : ofTokens (ts ++ semicolon :: us) = .ok o) :
    (p o.name.place ∨ q o.name.place) ∧ ∀ x ∈ o.findings, x.Forall p ∨ x.Forall q := by
  have hinl : o.Forall p → (p o.name.place ∨ q o.name.place) ∧
      ∀ x ∈ o.findings, x.Forall p ∨ x.Forall q :=
    fun h => ⟨.inl h.1, fun x hx => .inl (h.2 x hx)⟩
  have hcut : ts ++ semicolon :: us = (ts ++ [semicolon]) ++ us := by simp
  rcases shapes (ts ++ [semicolon]) with hnone |
    ⟨before, opener, body, hshape, hbefore, hopener, hbody⟩ |
    ⟨before, opener, body, closer, rest, hshape, hbefore, hopener, hbody, hcloser⟩
  · -- the module starts behind the semicolon
    rw [hcut, ofTokens_append hnone] at ho
    have h := ofTokens_forall hus ho
    exact ⟨.inr h.1, fun x hx => .inr (h.2 x hx)⟩
  · -- the module starts before the semicolon and ends behind it
    obtain ⟨body, rfl, rfl⟩ :
        ∃ body', body = body' ++ [semicolon] ∧ ts = before ++ opener :: body' := by
      rcases List.eq_nil_or_concat body with rfl | ⟨body', last, rfl⟩
      · have hlast := congrArg List.getLast? hshape
        simp only [List.getLast?_append, List.getLast?_singleton, Option.some_or,
          Option.some.injEq] at hlast
        rw [← hlast, hsemicolon] at hopener
        cases hopener
      · rw [List.concat_eq_append, ← List.cons_append, ← List.append_assoc] at hshape
        obtain ⟨hinit, hlast⟩ := List.append_inj' hshape rfl
        obtain rfl := List.singleton_inj.1 hlast
        exact ⟨body', List.concat_eq_append, hinit⟩
    have hbody' : ∀ t ∈ body, p t.place := fun t ht => hts t (by simp [ht])
    rcases exists_first (.keyword .moduleClose) us with hus' |
      ⟨after, closer, rest, rfl, hcloser, hafter⟩
    · rw [List.append_assoc, List.cons_append,
        ofTokens_unclosed hbefore hopener (hbody.append_semicolon hus')] at ho
      cases ho
    · have hwhole := hbody.append_semicolon hafter
      have htokens : before ++ opener :: body ++ semicolon :: (after ++ closer :: rest) =
          before ++ opener :: ((body ++ semicolon :: after) ++ closer :: rest) := by simp
      rw [htokens, ofTokens_module hbefore hopener hwhole hcloser] at ho
      have hafter' : ∀ t ∈ after, q t.place := fun t ht => hus t (List.mem_append_left _ ht)
      obtain ⟨tokens, htokens, hname, hfindings⟩ := ofBody_eq_ok_iff.1 ho
      rcases body with _ | ⟨name, body⟩
      · obtain ⟨hfirst, -⟩ := List.cons.inj htokens
        rw [← hfirst, hsemicolon] at hname
        cases hname
      · obtain ⟨hfirst, rfl⟩ := List.cons.inj htokens
        rw [← hfirst, hfindings]
        exact ⟨.inl (hbody' name (List.mem_cons_self ..)), fun x hx =>
          readBody_forall_or hsemicolon (fun t ht =>
            hbody' t (List.mem_cons_of_mem _ ht)) hafter' hx⟩
  · -- the module ends before the semicolon
    refine hinl (ofTokens_forall hts ?_)
    rw [hshape, ofTokens_module hbefore hopener hbody hcloser]
    rw [hcut, hshape, List.append_assoc, List.cons_append, List.append_assoc, List.cons_append,
      ofTokens_module hbefore hopener hbody hcloser] at ho
    exact ho

end Outline

/-! ## Stripping the parts -/

namespace Stripped

/-- A semicolon at the end is kept, as it is inside no block that is closed. -/
theorem ofTokens_append_semicolon {semicolon : Lexeme P} (hsemicolon : semicolon.kind = .semicolon)
    (ts : List (Lexeme P)) :
    ofTokens (ts ++ [semicolon]) = (ofTokens ts).append ⟨[semicolon], []⟩ := by
  have hkept : ofTokens [semicolon] = ⟨[semicolon], []⟩ := by
    rw [ofTokens, ofTokensFrom_cons_of_not_open (by simp [hsemicolon])]
    rfl
  rw [ofTokens_append fun u _ => by simp [closes, hsemicolon], hkept]

end Stripped

/-- Tokens that make up a block of the given kind: its keyword, and then its end keyword for the
first time at the very end. -/
def IsBlock (b : Block) (ts : List (Lexeme P)) : Prop :=
  ∃ opener inner closer, ts = opener :: (inner ++ [closer]) ∧
    opener.kind = .keyword (.blockOpen b) ∧
    Stripped.closes b inner = false ∧ closer.kind = .keyword (.blockClose b)

theorem Stripped.ofTokens_append_of_isBlock {b : Block} {ts : List (Lexeme P)} (h : IsBlock b ts)
    (us : List (Lexeme P)) : ofTokens (ts ++ us) = ofTokens us := by
  obtain ⟨opener, inner, closer, rfl, hopener, hinner, hcloser⟩ := h
  rw [List.cons_append, List.append_assoc, List.singleton_append,
    ofTokens_block hopener hinner hcloser]

theorem IsBlock.of_map {Q : Type} {f : P → Q} {b : Block} {ts : List (Lexeme P)}
    (h : IsBlock b (ts.map (Lexeme.map f))) : IsBlock b ts := by
  obtain ⟨opener, inner, closer, hts, hopener, hinner, hcloser⟩ := h
  obtain ⟨opener, rest, rfl, rfl, hrest⟩ := List.map_eq_cons_iff.1 hts
  obtain ⟨inner, last, rfl, rfl, hlast⟩ := List.map_eq_append_iff.1 hrest
  obtain ⟨closer, rfl, rfl⟩ := List.map_eq_singleton_iff.1 hlast
  exact ⟨opener, inner, closer, rfl, hopener, by rwa [Stripped.closes_map] at hinner, hcloser⟩

namespace Stripped

/-- A text that ends cleanly and with a semicolon, and leaves no block open, is stripped on its
own. -/
theorem ofText_append {cs q : List Char} (hcs : EndsCleanly cs) {ts : List (Lexeme Stretch)}
    {semicolon : Lexeme Stretch} (hts : lexemesFrom 0 cs = ts ++ [semicolon])
    (hsemicolon : semicolon.kind = .semicolon) (hclosed : (ofText cs).unclosed = []) :
    (ofText (cs ++ '\n' :: q)).tokens = (ofTokens ts).tokens ++ semicolon ::
      (ofText q).tokens.map (Lexeme.map (Stretch.shift (Text.byteLength cs + 1))) := by
  have hshift : lexemesFrom (0 + Text.byteLength cs + 1) q =
      (lexemesFrom 0 q).map (Lexeme.map (Stretch.shift (Text.byteLength cs + 1))) := by
    rw [Nat.add_assoc, lexemesFrom_add]
  have hnone : ∀ u ∈ (ofTokens (lexemesFrom 0 cs)).unclosed, closes u.1
      ((lexemesFrom 0 q).map (Lexeme.map (Stretch.shift (Text.byteLength cs + 1)))) = false := by
    rw [ofText] at hclosed
    simp [hclosed]
  rw [ofText, lexemesFrom_append_newline hcs, hshift, ofTokens_append hnone, hts,
    ofTokens_append_semicolon hsemicolon, tokens_append, tokens_append, ofTokens_map,
    List.append_assoc, List.singleton_append]
  rfl

/-- A text that makes up a block leaves nothing in front of what follows it. -/
theorem ofText_append_of_isBlock {cs q : List Char} (hcs : EndsCleanly cs) {b : Block}
    (h : IsBlock b (lexemesFrom 0 cs)) :
    ofText (cs ++ '\n' :: q) = (ofText q).map (Stretch.shift (Text.byteLength cs + 1)) := by
  rw [ofText, lexemesFrom_append_newline hcs, ofTokens_append_of_isBlock h, Nat.add_assoc,
    lexemesFrom_add, ofTokens_map]
  rfl

end Stripped

/-! ## Texts on either side of the block -/

/-- The two places, in a source and in another, of what lies on a text that stands in one source
behind `m` bytes and in the other behind `n`. -/
def Twice (m n : Nat) (cs : List Char) (x : Stretch × Stretch) : Prop :=
  ∃ z : Stretch, z.LiesOn cs ∧ x = (z.shift m, z.shift n)

section Carries

variable {a b : String} {cs more more' before before' : List Char}

/-- What stands in the first part of two sources is found in both. -/
theorem carries_first (ha : Addressable a) (hb : Addressable b) (hatext : a.toList = cs ++ more)
    (hbtext : b.toList = cs ++ more') :
    Carries a b (fun x : Stretch × Stretch => x.1.span) (fun x => x.2.span) (Twice 0 0 cs) := by
  rintro _ _ ⟨x, hx, rfl⟩ ⟨y, hy, rfl⟩ text (htext : (x.span.merge y.span).text? a = some text)
  show (x.span.merge y.span).text? b = some text
  rw [hx.text?_append hy hbtext hb, ← hx.text?_append hy hatext ha]
  exact htext

/-- What stands in the last part of two sources is found in both. -/
theorem carries_last (ha : Addressable a) (hb : Addressable b) (hatext : a.toList = before ++ cs)
    (hbtext : b.toList = before' ++ cs) :
    Carries a b (fun x : Stretch × Stretch => x.1.span) (fun x => x.2.span)
      (Twice (Text.byteLength before) (Text.byteLength before') cs) := by
  rintro _ _ ⟨x, hx, rfl⟩ ⟨y, hy, rfl⟩ text htext
  rw [hx.text?_shift hy hbtext hb, ← hx.text?_shift hy hatext ha]
  exact htext

end Carries

/-! ## The block -/

/-- The tokens of a source with the block and without it are the same, at places of their own. The
pairs hold both places of each token. -/
theorem exists_pairs {p blk : List Char} {b : Block} (hp : EndsCleanly p)
    {ts : List (Lexeme Stretch)}
    {semicolon : Lexeme Stretch} (hts : lexemesFrom 0 p = ts ++ [semicolon])
    (hsemicolon : semicolon.kind = .semicolon) (hclosed : (Stripped.ofText p).unclosed = [])
    (hblk : EndsCleanly blk) (hblock : IsBlock b (lexemesFrom 0 blk)) (q : List Char) :
    ∃ (left right : List (Lexeme (Stretch × Stretch))) (middle : Lexeme (Stretch × Stretch)),
      middle.kind = .semicolon ∧
      (Stripped.ofText (p ++ '\n' :: (blk ++ '\n' :: q))).tokens =
        (left ++ middle :: right).map (Lexeme.map Prod.fst) ∧
      (Stripped.ofText (p ++ '\n' :: q)).tokens =
        (left ++ middle :: right).map (Lexeme.map Prod.snd) ∧
      (∀ t ∈ left ++ [middle], Twice 0 0 p t.place) ∧
      ∀ t ∈ right, Twice (Text.byteLength (p ++ '\n' :: (blk ++ ['\n'])))
        (Text.byteLength (p ++ ['\n'])) q t.place := by
  have hlong := Stripped.ofText_append hp hts hsemicolon hclosed (q := blk ++ '\n' :: q)
  have hshort := Stripped.ofText_append hp hts hsemicolon hclosed (q := q)
  rw [Stripped.ofText_append_of_isBlock hblk hblock] at hlong
  have hnewline : '\n'.utf8Size = 1 := by decide
  refine ⟨(Stripped.ofTokens ts).tokens.map (Lexeme.map fun z => (z, z)),
    (Stripped.ofText q).tokens.map (Lexeme.map fun z =>
      (z.shift (Text.byteLength (p ++ '\n' :: (blk ++ ['\n']))),
        z.shift (Text.byteLength (p ++ ['\n'])))),
    semicolon.map fun z => (z, z), hsemicolon, ?_, ?_, ?_, ?_⟩
  · have hbefore : Text.byteLength blk + 1 + (Text.byteLength p + 1) =
        Text.byteLength (p ++ '\n' :: (blk ++ ['\n'])) := by
      simp only [Text.byteLength_append, Text.byteLength_cons, Text.byteLength_nil, hnewline]
      omega
    simp only [hlong, Stripped.map, List.map_append, List.map_cons, List.map_map, Function.comp_def,
      Lexeme.map_map, Stretch.shift_shift, hbefore]
    exact congrArg (· ++ _) (List.map_id _).symm
  · have hbefore : Text.byteLength p + 1 = Text.byteLength (p ++ ['\n']) := by
      simp only [Text.byteLength_append, Text.byteLength_cons, Text.byteLength_nil, hnewline]
    simp only [hshort, List.map_append, List.map_cons, List.map_map, Function.comp_def,
      Lexeme.map_map, hbefore]
    exact congrArg (· ++ _) (List.map_id _).symm
  · intro t ht
    have hkept : ∀ u ∈ (Stripped.ofTokens ts).tokens ++ [semicolon], u.place.LiesOn p := by
      intro u hu
      refine (liesOn_of_mem_lexemesFrom (hts ▸ ?_)).1
      exact (Stripped.tokens_sublist ts).append_right [semicolon] |>.subset hu
    rw [← List.map_singleton, ← List.map_append] at ht
    obtain ⟨u, hu, rfl⟩ := List.mem_map.1 ht
    exact ⟨u.place, hkept u hu, rfl⟩
  · intro t ht
    obtain ⟨u, hu, rfl⟩ := List.mem_map.1 ht
    exact ⟨u.place, (Extraction.liesOn_of_mem_ofText hu).1, rfl⟩

namespace Extraction

/-- **Subprogram blocks are invisible.** A block put behind a source that ends with a semicolon and
leaves no block open changes neither the signature nor the kind of the error, whatever follows. -/
theorem ofSource?_insert_block {p blk q : String} {b : Block} (hp : LexesCleanly p)
    (hlast : (Lexing.ofSource p).tokens.dropLast.getLast?.map Lexeme.kind = some .semicolon)
    (hclosed : (Stripped.ofTokens (Lexing.ofSource p).tokens).diagnostics = [])
    (hblk : LexesCleanly blk) (hblock : IsBlock b (Lexing.ofSource blk).tokens.dropLast)
    (ha : Addressable (p ++ "\n" ++ blk ++ "\n" ++ q)) :
    ∃ x y, ofSource? (p ++ "\n" ++ blk ++ "\n" ++ q) = some x ∧
      ofSource? (p ++ "\n" ++ q) = some y ∧ x.outcome = y.outcome := by
  obtain ⟨ts, semicolon, hts, hsemicolon⟩ : ∃ ts semicolon,
      lexemesFrom 0 p.toList = ts ++ [semicolon] ∧ semicolon.kind = .semicolon := by
    rw [tokens_dropLast, List.getLast?_map, Option.map_map] at hlast
    obtain ⟨semicolon, hsome, hkind⟩ := Option.map_eq_some_iff.1 hlast
    obtain ⟨ts, hts⟩ := List.getLast?_eq_some_iff.1 hsome
    exact ⟨ts, semicolon, hts, hkind⟩
  have hclosed' : (Stripped.ofText p.toList).unclosed = [] := by
    rw [Stripped.diagnostics, Stripped.ofTokens_ofSource, Stripped.unclosed_append, List.append_nil,
      List.map_eq_nil_iff] at hclosed
    exact List.map_eq_nil_iff.1 hclosed
  have hblock' : IsBlock b (lexemesFrom 0 blk.toList) := by
    rw [tokens_dropLast] at hblock
    exact hblock.of_map
  obtain ⟨left, right, middle, hmiddle, hlong, hshort, hleft, hright⟩ :=
    exists_pairs hp.endsCleanly hts hsemicolon hclosed' hblk.endsCleanly hblock' q.toList
  have hlongText : (p ++ "\n" ++ blk ++ "\n" ++ q).toList =
      p.toList ++ '\n' :: (blk.toList ++ '\n' :: q.toList) := by simp [String.toList_append]
  have hshortText : (p ++ "\n" ++ q).toList = p.toList ++ '\n' :: q.toList := by
    simp [String.toList_append]
  have ha' : Addressable (p ++ "\n" ++ q) := by
    simp only [Addressable, String.utf8ByteSize_append] at ha ⊢
    omega
  obtain ⟨x, hx⟩ := exists_ofSource? ha
  obtain ⟨y, hy⟩ := exists_ofSource? ha'
  refine ⟨x, y, hx, hy, ?_⟩
  -- what stands before the block is found at its place, what stands behind it at a later one
  have hfirst := carries_first ha ha' hlongText hshortText
  have hlast' := carries_last ha ha'
    (hlongText.trans (show _ = (p.toList ++ '\n' :: (blk.toList ++ ['\n'])) ++ q.toList by simp))
    (hshortText.trans (show _ = (p.toList ++ ['\n']) ++ q.toList by simp))
  have hlongOutline : Outline.ofText (p ++ "\n" ++ blk ++ "\n" ++ q).toList =
      ((Outline.ofTokens (left ++ middle :: right)).map (Outline.map Prod.fst)).mapError
        (ExtractError.map Prod.fst) := by
    rw [hlongText, Outline.ofText, hlong, Outline.ofTokens_map]
  have hshortOutline : Outline.ofText (p ++ "\n" ++ q).toList =
      ((Outline.ofTokens (left ++ middle :: right)).map (Outline.map Prod.snd)).mapError
        (ExtractError.map Prod.snd) := by
    rw [hshortText, Outline.ofText, hshort, Outline.ofTokens_map]
  refine outcome_eq_of_carries hlongOutline hshortOutline (fun o ho => ?_)
    (fun o ho f hf => ?_) hx hy
  · rcases (Outline.ofTokens_forall_or hmiddle hleft hright ho).1 with h | h
    · exact ⟨_, h, hfirst⟩
    · exact ⟨_, h, hlast'⟩
  · rcases (Outline.ofTokens_forall_or hmiddle hleft hright ho).2 f hf with h | h
    · exact ⟨_, h, hfirst⟩
    · exact ⟨_, h, hlast'⟩

/-- A task whose argument list reads like a port, and an `endmodule` among its tokens. -/
theorem ofSource?_insert_task :
    ∃ x y, ofSource? ("module m;" ++ "\n" ++ "task t; input a; endmodule endtask" ++ "\n" ++
        "output b; endmodule") = some x ∧
      ofSource? ("module m;" ++ "\n" ++ "output b; endmodule") = some y ∧
        x.outcome = y.outcome := by
  have hblock : (Lexing.ofSource "task t; input a; endmodule endtask").tokens.dropLast =
      ⟨.keyword (.blockOpen .task), ⟨0, 4⟩⟩ :: ([⟨.identifier, ⟨5, 6⟩⟩, ⟨.semicolon, ⟨6, 7⟩⟩,
        ⟨.keyword (.direction .input), ⟨8, 13⟩⟩, ⟨.identifier, ⟨14, 15⟩⟩, ⟨.semicolon, ⟨15, 16⟩⟩,
        ⟨.keyword .moduleClose, ⟨17, 26⟩⟩] ++ [⟨.keyword (.blockClose .task), ⟨27, 34⟩⟩]) := by cbv
  exact ofSource?_insert_block (.of_diagnostics_eq_nil (by cbv) (by decide)) (by cbv) (by cbv)
    (.of_diagnostics_eq_nil (by cbv) (by decide)) ⟨_, _, _, hblock, rfl, rfl, rfl⟩ (by decide)

end Extraction

end VerilogScaffold
