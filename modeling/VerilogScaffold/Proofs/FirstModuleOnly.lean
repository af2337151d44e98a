import Mathlib
import VerilogScaffold.Proofs.Line
import VerilogScaffold.Proofs.Reading

/-!
# Only the first module matters

Once a source has a module with a signature, the text after it adds nothing: extraction from the
source with more text behind it gives the same signature. The one way in which later text reaches
back is a `task` or `function` keyword that the source leaves open before the end of its module:
there an end keyword in the later text closes the block, and everything from the keyword on is taken
out, the `endmodule` included. `LeavesOpen` names that case, and `not_forall_ofSource_append` shows
that it has to be excluded.

## Shape of the argument

The tokens of the longer source are those of the source followed by those of the later text, as the
source lexes cleanly to its end. Stripping keeps the tokens up to the `endmodule`
(`Stripped.ofTokens_append_keeps`), so the outline is the same one, at the same places, and every
text it asks for is found where it was.
-/

namespace VerilogScaffold

namespace Outline

variable {Place : Type}

/-- The tokens before the first `endmodule` after the first `module`. -/
def beforeEnd (ts : Tokens Place) : Tokens Place :=
  ts.takeWhile (·.kind != .keyword .moduleOpen) ++
    (ts.dropWhile (·.kind != .keyword .moduleOpen)).takeWhile (·.kind != .keyword .moduleClose)

theorem beforeEnd_eq {before body rest : Tokens Place} {opener closer : Lexeme Place}
    (hbefore : NoOpener before) (hopener : opener.kind = .keyword .moduleOpen)
    (hbody : NoCloser body) (hcloser : closer.kind = .keyword .moduleClose) :
    beforeEnd (before ++ opener :: (body ++ closer :: rest)) = before ++ opener :: body := by
  have hbefore' : ∀ t ∈ before, (t.kind != .keyword .moduleOpen) = true := by
    simpa [NoOpener] using hbefore
  have hbody' : ∀ t ∈ opener :: body, (t.kind != .keyword .moduleClose) = true := by
    simpa [NoCloser, hopener] using hbody
  rw [beforeEnd, List.takeWhile_append_of_pos hbefore', List.dropWhile_append_of_pos hbefore',
    List.takeWhile_cons_of_neg (by simp [hopener]), List.dropWhile_cons_of_neg (by simp [hopener]),
    ← List.cons_append, List.takeWhile_append_of_pos hbody',
    List.takeWhile_cons_of_neg (by simp [hcloser])]
  simp

end Outline

/-- Whether a source leaves a block of the given kind open before the end of its first module: the
keyword is reported as never closed, and no `endmodule` of the module stands before it. -/
def LeavesOpen (source : String) (b : Block) : Prop :=
  ∃ t ∈ Outline.beforeEnd (Stripped.ofTokens (Lexing.ofSource source).tokens).tokens,
    t.kind = .keyword (.blockOpen b)

/-- A text is found where it was when more text stands behind the source. -/
theorem Span.text?_append {s : Span} {source text : String} (h : s.text? source = some text)
    (more : String) : s.text? (source ++ more) = some text := by
  obtain ⟨middle, hmiddle, rfl⟩ := Option.map_eq_some_iff.1 h
  rw [text?, String.toList_append, Text.slice?_append_of_eq_some hmiddle]
  rfl

namespace Outline

/-- The outline of a text stays the same when more text follows, unless that closes a block which
the text leaves open before the end of its module. -/
theorem ofText_append {cs q : List Char} (hcs : EndsCleanly cs) {o : Outline Stretch}
    (ho : ofText cs = .ok o)
    (hopen : ∀ t ∈ beforeEnd (Stripped.ofText cs).tokens, ∀ b, t.kind = .keyword (.blockOpen b) →
      Stripped.closes b (lexemesFrom 0 q) = false) :
    ofText (cs ++ '\n' :: q) = .ok o := by
  obtain ⟨before, opener, body, closer, rest, hts, hbefore, hopener, hbody, hcloser, hresult⟩ :=
    exists_module_of_ok ho
  have hlexemes : lexemesFrom 0 (cs ++ '\n' :: q) = lexemesFrom 0 cs ++
      (lexemesFrom 0 q).map (Lexeme.map (Stretch.shift (Text.byteLength cs + 1))) := by
    rw [lexemesFrom_append_newline hcs, Nat.add_assoc, lexemesFrom_add]
  have hkept : before ++ opener :: (body ++ [closer]) <+: (Stripped.ofText cs).tokens :=
    ⟨rest, by simp [hts]⟩
  rw [hts, beforeEnd_eq hbefore hopener hbody hcloser] at hopen
  have hcloses : ∀ t ∈ before ++ opener :: (body ++ [closer]), ∀ b,
      t.kind = .keyword (.blockOpen b) →
      Stripped.closes b
        ((lexemesFrom 0 q).map (Lexeme.map (Stretch.shift (Text.byteLength cs + 1)))) = false := by
    intro t ht b hb
    rw [Stripped.closes_map]
    -- the `endmodule` opens no block, and what stands before it is what `hopen` is about
    rw [← List.cons_append, ← List.append_assoc] at ht
    rcases List.mem_append.1 ht with ht | ht
    · exact hopen t ht b hb
    · rw [List.mem_singleton.1 ht, hcloser] at hb
      cases hb
  obtain ⟨rest', hrest'⟩ := Stripped.ofTokens_append_keeps hkept hcloses
  rw [ofText, Stripped.ofText, hlexemes, ← hrest', List.append_assoc, List.cons_append,
    List.append_assoc, List.singleton_append,
    ofTokens_module hbefore hopener hbody hcloser, hresult]

end Outline

/-- A block keyword that stripping keeps before the end of the module is left open. -/
theorem leavesOpen_of_mem {source : String} {o : Outline Stretch}
    (ho : Outline.ofText source.toList = .ok o) {t : Lexeme Stretch}
    (ht : t ∈ Outline.beforeEnd (Stripped.ofText source.toList).tokens) {b : Block}
    (hb : t.kind = .keyword (.blockOpen b)) : LeavesOpen source b := by
  obtain ⟨before, opener, body, closer, rest, hts, hbefore, hopener, hbody, hcloser, -⟩ :=
    Outline.exists_module_of_ok ho
  rw [hts, Outline.beforeEnd_eq hbefore hopener hbody hcloser] at ht
  have hopener' : (opener.map Stretch.span).kind = .keyword .moduleOpen := hopener
  have hcloser' : (closer.map Stretch.span).kind = .keyword .moduleClose := hcloser
  refine ⟨t.map Stretch.span, ?_, hb⟩
  rw [Stripped.ofTokens_ofSource, Stripped.tokens_append, Stripped.map, hts]
  simp only [List.map_append, List.map_cons, List.append_assoc, List.cons_append]
  rw [Outline.beforeEnd_eq ((Outline.noOpener_map _).2 hbefore) hopener'
    ((Outline.noCloser_map _).2 hbody) hcloser', ← List.map_cons, ← List.map_append]
  exact List.mem_map_of_mem ht

namespace Extraction

/-- **Only the first module matters.** Text behind a source that lexes cleanly changes nothing of
its signature, unless it closes a block that the source leaves open before the end of its module. -/
theorem ofSource_append {s t : String} {info : Signature} (hs : LexesCleanly s)
    (hinfo : (ofSource s).result = .ok info)
    (hopen : ∀ b, LeavesOpen s b → Stripped.closes b (Lexing.ofSource t).tokens = false) :
    (ofSource (s ++ "\n" ++ t)).result = .ok info := by
  obtain ⟨x, hx, hresult⟩ := ofSource?_of_result_ok hinfo
  obtain ⟨o, ho, hsignature, ⟨onName, honName⟩, onRest, honRest⟩ :=
    exists_outline_of_ofSource? hx hresult
  have hfound : ∀ span text, Span.text? span s = some text →
      span.text? (s ++ "\n" ++ t) = some text := by
    intro span text h
    rw [String.append_assoc]
    exact Span.text?_append h _
  -- the tokens of the outline have not moved, so what is looked up is the same span in both sources
  have hcarries : Carries s (s ++ "\n" ++ t) Stretch.span Stretch.span fun _ => True :=
    fun x y _ _ text h => hfound _ text h
  have hlonger : Outline.ofText (s ++ "\n" ++ t).toList = .ok o := by
    have htoList : (s ++ "\n" ++ t).toList = s.toList ++ '\n' :: t.toList := by
      simp [String.toList_append]
    rw [htoList]
    refine Outline.ofText_append hs.endsCleanly ho fun u hu b hb => ?_
    have hcloses := hopen b (leavesOpen_of_mem ho hu hb)
    rwa [Stripped.closes, any_tokens_ofSource (· == .keyword (.blockClose b)) (by rfl)] at hcloses
  have hforall : o.Forall fun _ => True := Outline.ofTokens_forall (fun _ _ => trivial) ho
  have hsignature' : Signature.ofOutline? (s ++ "\n" ++ t) (o.map Stretch.span) = some info :=
    Signature.ofOutline?_of_carries ⟨_, hforall.1, hcarries⟩
      (fun x hx => ⟨_, hforall.2 x hx, hcarries⟩) hsignature
  rw [ofSource, ofSource?_of_ok hlonger, hsignature', Outline.nameDiagnostics?_mono hfound honName,
    Outline.remarkDiagnostics?_mono hfound honRest]
  rfl

/-- A source with a `task` keyword in its module, the later text without an end keyword. -/
theorem ofSource_append_open :
    (ofSource ("module m;\ntask t;\nendmodule" ++ "\n" ++ "module n; endmodule")).result =
      .ok (.ofName "m") :=
  ofSource_append (.of_diagnostics_eq_nil (by cbv) (by decide))
    (by rw [ofSource, ofSource?_eq_ofLexing?]; cbv) fun b _ => by cases b <;> cbv

/-- Later text reaches back where the source leaves a block open before the end of its module. -/
theorem not_forall_ofSource_append :
    ¬ ∀ (s t : String) (info : Signature), LexesCleanly s → (ofSource s).result = .ok info →
      (ofSource (s ++ "\n" ++ t)).result = .ok info := by
  intro h
  have hresult := h "module m;\ntask t;\nendmodule" "endtask" (.ofName "m")
    (.of_diagnostics_eq_nil (by cbv) (by decide)) (by rw [ofSource, ofSource?_eq_ofLexing?]; cbv)
  have herror : (ofSource ("module m;\ntask t;\nendmodule" ++ "\n" ++ "endtask")).result =
      .error (.missingEndmodule ⟨.keyword .moduleOpen, ⟨0, 6⟩⟩) := by
    rw [ofSource, ofSource?_eq_ofLexing?]
    cbv
  rw [herror] at hresult
  cases hresult

end Extraction

end VerilogScaffold
