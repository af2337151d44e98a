import VerilogScaffold.Proofs.ClosedGaps
import VerilogScaffold.Proofs.ParameterDeclaration
import VerilogScaffold.Proofs.PortDeclaration
import VerilogScaffold.Proofs.SolidBlock
import VerilogScaffold.Proofs.Substitution
import VerilogScaffold.Template.Render

/-!
# The testbench is read back

The bundled testbench is itself a module, and extraction reads it back as one: with the name of the
module that it tests behind `tb_`, with the same parameters, and without ports
(`Extraction.ofSource?_render_testbench`).

## Shape of the argument

The testbench is written down in full, first with its gaps (`substitute_testbench`) and then without
them (`toList_render_testbench`): a section whose block is empty loses the line of the block, and
nothing else changes (`IsTitle.exists_collapseBlankLines`). What is written down is then read from
its end, a piece at a time (`declaresModule_testbench`).
-/

namespace VerilogScaffold

open Text Segment

namespace Template

/-- The bundled testbench, cut at its placeholders and between what is read piece by piece. -/
theorem toList_bundled_testbench : (bundled .testbench).toList =
    "`timescale 1ns / 1ps\n\nmodule tb_".toList ++
      (Placeholder.moduleName.written.toList ++ (";\n\n".toList ++
    ("// Parameters\n".toList ++
      (Placeholder.parameterDeclaration.written.toList ++ ("\n\n".toList ++
    ("// Inputs\n".toList ++ (Placeholder.inputDeclaration.written.toList ++ ("\n\n".toList ++
    ("// Outputs\n".toList ++ (Placeholder.outputDeclaration.written.toList ++ ("\n\n".toList ++
    ("// Inouts\n".toList ++ (Placeholder.inoutDeclaration.written.toList ++ ("\n\n".toList ++
    (Placeholder.moduleName.written.toList ++ (" ".toList ++
    (Placeholder.parameterDefinition.written.toList ++ (" u_".toList ++
    (Placeholder.moduleName.written.toList ++ (" (\n".toList ++
    (Placeholder.portConnection.written.toList ++ ("\n);\n\ninitial begin\n    $dumpfile(".toList ++
    ("\"tb_".toList ++ (Placeholder.moduleName.written.toList ++ (".vcd\"".toList ++
    (");\n    $dumpvars(0,".toList ++ (" tb_".toList ++ (Placeholder.moduleName.written.toList ++
    (");\nend\n\ninitial begin\n    #1000;\n    $finish;\nend".toList ++
    "\n\nendmodule\n".toList))))))))))))))))))))))))))))) := by
  have happend : ∀ a b : String, a.toList ++ b.toList = (a ++ b).toList := fun a b =>
    String.toList_append.symm
  simp only [happend]
  exact congrArg String.toList (by decide +kernel)

/-- The start of a testbench, up to its declarations. -/
def testbenchHead (name : List Char) : List Char :=
  "`timescale 1ns / 1ps\n\nmodule tb_".toList ++ (name ++ ";\n\n".toList)

/-- A section of declarations: the line of its title, and its block as the template lays it out. -/
def testbenchSection (title : String) (block : List Char) : List Char :=
  title.toList ++ (block ++ "\n\n".toList)

/-- What a testbench does with the instance: its dump and its end. -/
def testbenchRun (name : List Char) : List Char :=
  "\n);\n\ninitial begin\n    $dumpfile(".toList ++ ("\"tb_".toList ++ (name ++ (".vcd\"".toList ++
    (");\n    $dumpvars(0,".toList ++ (" tb_".toList ++ (name ++
      (");\nend\n\ninitial begin\n    #1000;\n    $finish;\nend".toList ++
        "\n\nendmodule\n".toList)))))))

/-- The instance that a testbench drives, and what it does with it. -/
def testbenchInstance (s : Signature) : List Char :=
  s.name.toList ++ (" ".toList ++
    ((Block.parameterDefinition s.parameters).toList ++ (" u_".toList ++
    (s.name.toList ++ (" (\n".toList ++
      ((Block.portConnection s).toList ++ testbenchRun s.name.toList))))))

/-- The testbench of a module before its gaps are closed. -/
theorem substitute_testbench {s : Signature} (hname : terminatedName s.name = s.name) :
    Placeholder.substitute s (bundled .testbench).toList =
      testbenchHead s.name.toList ++
        (testbenchSection "// Parameters\n" (Block.parameterDeclaration s.parameters).toList ++
        (testbenchSection "// Inputs\n" (Block.portDeclaration .input s.inputs).toList ++
        (testbenchSection "// Outputs\n" (Block.portDeclaration .output s.outputs).toList ++
        (testbenchSection "// Inouts\n" (Block.portDeclaration .inout s.inouts).toList ++
          testbenchInstance s)))) := by
  have hend : Placeholder.substitute s "\n\nendmodule\n".toList = "\n\nendmodule\n".toList :=
    Placeholder.substitute_eq_self s (by decide +kernel) (by decide +kernel)
  rw [toList_bundled_testbench]
  simp (disch := decide +kernel) only [Placeholder.substitute_append,
    Placeholder.substitute_written, Placeholder.expand, hname]
  rw [hend]
  unfold testbenchHead testbenchSection testbenchInstance testbenchRun
  simp only [List.append_assoc]

/-! ## The testbench without gaps -/

/-- Whether a text is the line of a section's title. -/
structure IsTitle (title : String) : Prop where
  comment : ∃ cs, title.toList = '/' :: '/' :: (cs ++ ['\n']) ∧ ∀ c ∈ cs, c ≠ '\n'
  newlines : newlinesAfter? 0 title.toList = some 1
  alone : collapseBlankLines (title.toList ++ "\n\n".toList) = title.toList ++ "\n".toList

theorem isTitle_parameters : IsTitle "// Parameters\n" :=
  ⟨⟨" Parameters".toList, rfl, by decide⟩, rfl, by cbv⟩

theorem isTitle_inputs : IsTitle "// Inputs\n" :=
  ⟨⟨" Inputs".toList, rfl, by decide⟩, rfl, by cbv⟩

theorem isTitle_outputs : IsTitle "// Outputs\n" :=
  ⟨⟨" Outputs".toList, rfl, by decide⟩, rfl, by cbv⟩

theorem isTitle_inouts : IsTitle "// Inouts\n" :=
  ⟨⟨" Inouts".toList, rfl, by decide⟩, rfl, by cbv⟩

namespace IsTitle

variable {title : String} {block : List Char}

theorem head?_section (h : IsTitle title) (block rest : List Char) :
    ∀ c ∈ (testbenchSection title block ++ rest).head?, isBlank c = false := by
  obtain ⟨cs, hcs, -⟩ := h.comment
  rw [testbenchSection, hcs]
  rintro c ⟨⟩
  rfl

/-- A section whose block is empty loses the line of the block. -/
theorem exists_collapseBlankLines (h : IsTitle title) (hblock : block = [] ∨ Solid block) :
    ∃ gap, (∀ c ∈ gap, isAsciiBlank c = true) ∧
      collapseBlankLines (testbenchSection title block) = title.toList ++ (block ++ gap) := by
  rcases hblock with rfl | hblock
  · exact ⟨"\n".toList, by decide, h.alone⟩
  · have hend : newlinesAfter? 0 "\n\n".toList = some 2 := rfl
    have hsection : newlinesAfter? 0 (testbenchSection title block) = some 2 := by
      rw [testbenchSection, newlinesAfter?_append, h.newlines, Option.bind_some, hblock.append hend]
    exact ⟨"\n\n".toList, by decide, collapseBlankLines_of_newlinesAfter? hsection⟩

/-- A section without gaps in front of the rest of a module. -/
theorem completes (h : IsTitle title) (hblock : block = [] ∨ Solid block) {ps qs : List Parameter}
    (hreads : ∀ {F}, Completes F ps → Completes (block ++ F) qs) {F : List Char}
    (hF : Completes F ps) :
    Completes (collapseBlankLines (testbenchSection title block) ++ F) qs := by
  obtain ⟨gap, hgap, hcollapse⟩ := h.exists_collapseBlankLines hblock
  obtain ⟨cs, htitle, hcs⟩ := h.comment
  rw [hcollapse, htitle]
  have := ((hreads (hF.blanks hgap)).blank (c := '\n') rfl).comment hcs
  simpa using this

end IsTitle

/-- What a testbench does with its instance has no gap. -/
theorem newlinesAfter?_testbenchRun {name : String} (h : IsPlainName name) {n : Nat} (hn : n ≤ 1) :
    newlinesAfter? n (testbenchRun name.toList) = some 1 := by
  have hdump : newlinesAfter? n "\n);\n\ninitial begin\n    $dumpfile(".toList = some 0 := by
    obtain rfl | rfl := Nat.le_one_iff_eq_zero_or_eq_one.1 hn <;> rfl
  have hquote : Solid "\"tb_".toList := fun _ => rfl
  have hfile : Solid ".vcd\"".toList := fun _ => rfl
  have hvars : Solid ");\n    $dumpvars(0,".toList := fun _ => rfl
  have htop : Solid " tb_".toList := fun _ => rfl
  have hfinish : Solid ");\nend\n\ninitial begin\n    #1000;\n    $finish;\nend".toList :=
    fun _ => rfl
  have hend : newlinesAfter? 0 "\n\nendmodule\n".toList = some 1 := rfl
  unfold testbenchRun
  rw [newlinesAfter?_append, hdump, Option.bind_some]
  exact hquote.append (h.solid.append (hfile.append (hvars.append (htop.append (h.solid.append
    (hfinish.append hend 0) 0) 0) 0) 0) 0) 0

/-- The instance has no gap, whichever of its lists are empty. -/
theorem newlinesAfter?_testbenchInstance {s : Signature} (h : s.Plain) :
    newlinesAfter? 0 (testbenchInstance s) = some 1 := by
  have hspace : newlinesAfter? 0 " ".toList = some 0 := rfl
  have hinstance : Solid " u_".toList := fun _ => rfl
  have hopening : newlinesAfter? 0 " (\n".toList = some 1 := rfl
  have hdefinition : newlinesAfter? 0 (Block.parameterDefinition s.parameters).toList = some 0 := by
    rcases Block.solid_parameterDefinition h.parameter with hnil | hsolid
    · rw [hnil, newlinesAfter?_nil]
    · exact hsolid 0
  obtain ⟨n, hn, hconnection⟩ :
      ∃ n ≤ 1, newlinesAfter? 1 (Block.portConnection s).toList = some n := by
    rcases Block.solid_portConnection h.port with hnil | hsolid
    · exact ⟨1, le_rfl, by rw [hnil, newlinesAfter?_nil]⟩
    · exact ⟨0, Nat.zero_le 1, hsolid 1⟩
  have hconnected : newlinesAfter? 1
      ((Block.portConnection s).toList ++ testbenchRun s.name.toList) = some 1 := by
    rw [newlinesAfter?_append, hconnection, Option.bind_some, newlinesAfter?_testbenchRun h.name hn]
  have hlist : newlinesAfter? 0 (" (\n".toList ++ ((Block.portConnection s).toList ++
      testbenchRun s.name.toList)) = some 1 := by
    rw [newlinesAfter?_append, hopening, Option.bind_some, hconnected]
  rw [testbenchInstance, h.name.solid.append]
  rw [newlinesAfter?_append, hspace, Option.bind_some, newlinesAfter?_append, hdefinition,
    Option.bind_some]
  exact hinstance.append (h.name.solid.append hlist 0) 0

theorem newlinesAfter?_testbenchHead {name : String} (h : IsPlainName name) :
    newlinesAfter? 0 (testbenchHead name.toList) = some 2 := by
  have htimescale : newlinesAfter? 0 "`timescale 1ns / 1ps\n\nmodule tb_".toList = some 0 := rfl
  have hend : newlinesAfter? 0 ";\n\n".toList = some 2 := rfl
  unfold testbenchHead
  rw [newlinesAfter?_append, htimescale, Option.bind_some, h.solid.append hend]

/-- The testbench of a module. Only the gaps that empty blocks of declarations leave are closed. -/
theorem toList_render_testbench {s : Signature} (h : s.Plain) :
    (render (bundled .testbench) s).toList =
      testbenchHead s.name.toList ++
        (collapseBlankLines
          (testbenchSection "// Parameters\n" (Block.parameterDeclaration s.parameters).toList) ++
        (collapseBlankLines
          (testbenchSection "// Inputs\n" (Block.portDeclaration .input s.inputs).toList) ++
        (collapseBlankLines
          (testbenchSection "// Outputs\n" (Block.portDeclaration .output s.outputs).toList) ++
        (collapseBlankLines
          (testbenchSection "// Inouts\n" (Block.portDeclaration .inout s.inouts).toList) ++
          testbenchInstance s)))) := by
  have hinstance : ∀ c ∈ (testbenchInstance s).head?, isBlank c = false := by
    intro c hc
    refine h.name.not_blank c ?_
    rcases hname : s.name.toList with _ | ⟨d, cs⟩
    · exact absurd hname h.name.ne_nil
    · rw [testbenchInstance, hname] at hc
      obtain rfl := Option.some.inj hc
      exact List.mem_cons_self ..
  rw [render, String.toList_ofList, substitute_testbench h.name.terminatedName_eq,
    collapseBlankLines_append (isTitle_parameters.head?_section _ _),
    collapseBlankLines_append (isTitle_inputs.head?_section _ _),
    collapseBlankLines_append (isTitle_outputs.head?_section _ _),
    collapseBlankLines_append (isTitle_inouts.head?_section _ _),
    collapseBlankLines_append hinstance,
    collapseBlankLines_of_newlinesAfter? (newlinesAfter?_testbenchHead h.name),
    collapseBlankLines_of_newlinesAfter? (newlinesAfter?_testbenchInstance h)]

/-! ## Reading the testbench -/

/-- A plain name behind a start with an underscore, in front of what is no word. -/
theorem completes_underscored {name start : String}
    (h : IsPlainName (start ++ name)) {F : List Char}
    {ps : List Parameter} (hF : startsWith isWordChar F = false) (hcompletes : Completes F ps) :
    Completes (start.toList ++ (name.toList ++ F)) ps := by
  have := hcompletes.name (k := 0) h.isName (fun hhead => absurd hhead h.head?_ne) hF
  rwa [String.toList_append, List.append_assoc] at this

/-- The rest of a module behind the instance. -/
theorem completes_testbenchRun {name : String} (h : IsPlainName name) :
    Completes (testbenchRun name.toList) [] := by
  have hfile : ∀ c ∈ "tb_".toList ++ (name.toList ++ ".vcd".toList), c ≠ '"' ∧
      c ≠ '\\' ∧ c ≠ '\n' := by
    have hword : ∀ c, isWordChar c = true → c ≠ '"' ∧ c ≠ '\\' ∧ c ≠ '\n' := by
      refine fun c hc => ⟨?_, ?_, ?_⟩ <;> rintro rfl <;> cases hc
    refine List.forall_mem_append.2 ⟨by decide, List.forall_mem_append.2 ⟨?_, by decide⟩⟩
    exact fun c hc => hword c (h.isWordChar c hc)
  have htop : IsPlainName ("tb_" ++ name) :=
    h.underscored (c := 't') rfl rfl (by decide) (by decide)
  have hclose : Completes ("endmodule".toList ++ ['\n']) [] :=
    Completes.endmodule (Keeps.nil.blank rfl) rfl
  have hend : Completes ('\n' :: '\n' :: ("endmodule".toList ++ ['\n'])) [] :=
    (hclose.blank rfl).blank rfl
  have hwait : isFiller ");\nend\n\ninitial begin\n    #1000;\n    $finish;\nend".toList =
      true := by cbv
  have hvariables : isFiller ");\n    $dumpvars(0,".toList = true := by cbv
  have hopening : isFiller "\n);\n\ninitial begin\n    $dumpfile(".toList = true := by cbv
  -- from `endmodule` back to the instance
  have hfinish := hend.filler hwait (mayReplace_nil_iff.2 ⟨rfl, rfl, rfl⟩)
  have hvars := ((completes_underscored htop rfl hfinish).blank (c := ' ') rfl).filler hvariables
    (mayReplace_nil_iff.2 ⟨rfl, rfl, rfl⟩)
  have hdump := (hvars.string hfile).filler hopening (mayReplace_nil_iff.2 ⟨rfl, rfl, rfl⟩)
  simp only [List.append_assoc] at hdump
  exact hdump

/-- The rest of a module from the instance on. -/
theorem completes_testbenchInstance {s : Signature} (h : s.Plain) {cs : List Char}
    (hnamed : s.Named cs) :
    Completes (testbenchInstance s) [] := by
  have hinstance : IsPlainName ("u_" ++ s.name) :=
    h.name.underscored (c := 'u') rfl rfl (by decide) (by decide)
  have hports := (completes_testbenchRun h.name).portConnection hnamed fun p hp =>
    (h.port p hp).head?_ne
  have hopening := ((hports.blank (c := '\n') rfl).single (c := '(') rfl rfl).blank (c := ' ') rfl
  have hdefinition :=
    ((completes_underscored hinstance rfl hopening).blank (c := ' ') rfl).parameterDefinition
    hnamed.parameters fun p hp => (h.parameter p hp).head?_ne
  exact (hdefinition.blank (c := ' ') rfl).name (k := 0) h.name.isName
    (fun hhead => absurd hhead h.name.head?_ne) rfl

/-- The testbench of a module is a module that declares the same parameters. -/
theorem declaresModule_testbench {s : Signature} (h : s.Plain) {cs : List Char}
    (hlegible : s.Legible cs)
    (hvalues : ∀ p ∈ s.parameters, GapFree p.value.toList ∧
      endsInEscapedName p.value.toList = false)
    (hranges : ∀ p ∈ s.allPorts, GapFree p.range.toList ∧ DeclaresNothing p.range.toList) :
    DeclaresModule (render (bundled .testbench) s).toList ("tb_" ++ s.name).toList
      s.parameters := by
  have hpadded : Block.Padded s.parameters := fun p hp hescaped => by
    rw [(hvalues p hp).2] at hescaped
    cases hescaped
  have hports : ∀ d, ∀ p ∈ s.ports d, p ∈ s.allPorts :=
    fun d p hp => Signature.mem_allPorts.2 ⟨d, hp⟩
  have hsection : ∀ d {title}, IsTitle title → ∀ {F ps}, Completes F ps →
      Completes (collapseBlankLines
        (testbenchSection title (Block.portDeclaration d (s.ports d)).toList) ++ F) ps :=
    fun d title htitle F ps hF => htitle.completes
      (Block.solid_portDeclaration d (fun p hp => h.port p (hports d p hp)) fun p hp =>
        (hranges p (hports d p hp)).1)
      (Completes.portDeclaration d (hlegible.port d) (fun p hp =>
        (h.port p (hports d p hp)).head?_ne) fun p hp => (hranges p (hports d p hp)).2) hF
  -- from the instance back to the directive
  have hinouts := hsection .inout isTitle_inouts (completes_testbenchInstance h hlegible.toNamed)
  have houtputs := hsection .output isTitle_outputs hinouts
  have hinputs := hsection .input isTitle_inputs houtputs
  have hparameters := isTitle_parameters.completes
    (Block.solid_parameterDeclaration h.parameter fun p hp => (hvalues p hp).1)
    (Completes.parameterDeclaration hlegible.parameter hpadded) hinputs
  have htop : IsPlainName ("tb_" ++ s.name) :=
    h.name.underscored (c := 't') rfl rfl (by decide) (by decide)
  have hmodule := ((hparameters.blank (c := '\n') rfl).blank (c := '\n') rfl).module
    htop.isName htop.head?_ne
  have hdirective : ∀ F, measure '\x60' ("timescale 1ns / 1ps".toList ++ '\n' :: F) =
      (.directive, 19) := fun F => rfl
  have hwhole := hmodule.of_keeps fun hF =>
    ((hF.blank (c := '\n') rfl).blank (c := '\n') rfl).skip (hdirective _) rfl rfl
  rw [List.append_nil] at hwhole
  refine (congrArg (DeclaresModule · _ s.parameters) ?_).mp hwhole
  rw [toList_render_testbench h]
  unfold testbenchHead
  simp only [String.toList_append, List.append_assoc]
  rfl

end Template

namespace Extraction

/-- A token that is lexed is one of the tokens of the source. -/
theorem exists_mem_tokens_of_mem_lexemes {source : String} {t : Lexeme Site}
    (ht : t ∈ lexemes source.toList) :
    ∃ u ∈ (Lexing.ofSource source).tokens, u.kind = t.kind := by
  rw [tokens_ofSource, lexemesFrom_zero]
  exact ⟨_, List.mem_append_left _ (List.mem_map_of_mem (List.mem_map_of_mem ht)), rfl⟩

/-- **The testbench is read back.** The testbench of a clean source without escaped names, gaps in
its values and ranges, and declarations in its ranges is a module with the name of the source's
module behind `tb_`, the same parameters up to blanks at the end of a value, and no ports. -/
theorem ofSource?_render_testbench {source : String} (ha : Addressable source) {x : Extraction}
    (hx : ofSource? source = some x) {s : Signature} (hs : x.result = .ok s) (hclean : x.Clean)
    (hplain : ∀ t ∈ (Lexing.ofSource source).tokens, t.kind ≠ .escapedIdentifier)
    (hvalues : ∀ p ∈ s.parameters, GapFree p.value.toList)
    (hranges : ∀ p ∈ s.allPorts, GapFree p.range.toList)
    (hdeclares : ∀ p ∈ s.allPorts, ∀ t ∈ (Lexing.ofSource p.range).tokens,
      t.kind ≠ .keyword .parameter ∧ t.kind.isDirection = false)
    (hout : Addressable (Template.render (Template.bundled .testbench) s)) :
    ∃ y t, ofSource? (Template.render (Template.bundled .testbench) s) = some y ∧ y.result = .ok t ∧
      t.name = "tb_" ++ s.name ∧
      t.parameters.map Parameter.trimmed = s.parameters.map Parameter.trimmed ∧
      t.allPorts = [] := by
  have hlegible := hclean.legible ha hx hs
  have hlexemes : ∀ t ∈ lexemes source.toList, t.kind ≠ .escapedIdentifier := by
    intro t ht
    obtain ⟨u, hu, hkind⟩ := exists_mem_tokens_of_mem_lexemes ht
    exact hkind ▸ hplain u hu
  have hname : ∀ {name}, NamedIn source.toList name → IsPlainName name := fun h =>
    ⟨h.isName, h.head?_ne hlexemes⟩
  have hports : ∀ p ∈ s.allPorts, NamedIn source.toList p.name := by
    intro p hp
    obtain ⟨d, hp⟩ := Signature.mem_allPorts.1 hp
    exact hlegible.ports d p hp
  have hs' : s.Plain := ⟨hname hlegible.toNamed.name, fun p hp => hname (hlegible.parameters p hp),
    fun p hp => hname (hports p hp)⟩
  -- a value ends in no escaped name, for its tokens are tokens of the source
  have hends : ∀ p ∈ s.parameters, endsInEscapedName p.value.toList = false := by
    intro p hp
    rw [endsInEscapedName]
    rcases hlast : (lexemes p.value.toList).getLast? with _ | t
    · rfl
    · have hmem : t.kind ∈ (lexemes source.toList).map Lexeme.kind :=
        (hlegible.parameter p hp).kinds.subset (List.mem_map_of_mem (List.mem_of_getLast? hlast))
      obtain ⟨u, hu, hkind⟩ := List.mem_map.1 hmem
      simpa [hkind] using hlexemes u hu
  have hinert : ∀ p ∈ s.allPorts, DeclaresNothing p.range.toList := by
    intro p hp t ht
    obtain ⟨u, hu, hkind⟩ := exists_mem_tokens_of_mem_lexemes ht
    obtain ⟨hparameter, hdirection⟩ := hdeclares p hp u hu
    rw [hkind] at hparameter hdirection
    refine ⟨hparameter, fun d hd => ?_⟩
    rw [hd] at hdirection
    cases hdirection
  obtain ⟨y, qs, hy, hresult, hqs⟩ := (Template.declaresModule_testbench hs' hlegible
    (fun p hp => ⟨hvalues p hp, hends p hp⟩) fun p hp =>
      ⟨hranges p hp, hinert p hp⟩).exists_result hout
  exact ⟨y, _, hy, hresult, String.ofList_toList, hqs, rfl⟩

/-- The testbench of a module with a parameter, a range and an empty block. -/
theorem ofSource?_render_testbench_ranges :
    ∃ y t, ofSource? (Template.render (Template.bundled .testbench)
      ⟨"m", [⟨"W", "8"⟩], [⟨"a", "[W-1:0]"⟩], [⟨"b", ""⟩], []⟩) = some y ∧ y.result = .ok t ∧
      t.name = "tb_" ++ "m" ∧ t.parameters.map Parameter.trimmed = [⟨"W", "8"⟩] ∧
      t.allPorts = [] := by
  have hsource : Addressable
      "module m #(parameter W = 8) (input [W-1:0] a, output b); endmodule" := by decide
  have hx : ofSource "module m #(parameter W = 8) (input [W-1:0] a, output b); endmodule" =
      ⟨.ok ⟨"m", [⟨"W", "8"⟩], [⟨"a", "[W-1:0]"⟩], [⟨"b", ""⟩], []⟩, []⟩ := by
    rw [ofSource, ofSource?_eq_ofLexing?]
    cbv
  have hclean : (ofSource
      "module m #(parameter W = 8) (input [W-1:0] a, output b); endmodule").Clean := by
    rw [hx]
    decide
  have hplain : ∀ t ∈ (Lexing.ofSource
      "module m #(parameter W = 8) (input [W-1:0] a, output b); endmodule").tokens,
      t.kind ≠ .escapedIdentifier := by
    have hkinds : (Lexing.ofSource
        "module m #(parameter W = 8) (input [W-1:0] a, output b); endmodule").tokens.all
        (·.kind ≠ .escapedIdentifier) = true := by
      cbv
    simpa using hkinds
  have hout : Addressable (Template.render (Template.bundled .testbench)
      ⟨"m", [⟨"W", "8"⟩], [⟨"a", "[W-1:0]"⟩], [⟨"b", ""⟩], []⟩) := by
    have hnames : Signature.Plain ⟨"m", [⟨"W", "8"⟩], [⟨"a", "[W-1:0]"⟩], [⟨"b", ""⟩], []⟩ :=
      ⟨⟨.plain rfl (by decide) rfl, by decide⟩,
        List.forall_mem_singleton.2 ⟨.plain rfl (by decide) rfl, by decide⟩,
        List.forall_mem_cons.2 ⟨⟨.plain rfl (by decide) rfl, by decide⟩,
          List.forall_mem_singleton.2 ⟨.plain rfl (by decide) rfl, by decide⟩⟩⟩
    have hparameters : Text.collapseBlankLines (Template.testbenchSection "// Parameters\n"
        (Block.parameterDeclaration [⟨"W", "8"⟩]).toList) =
      "// Parameters\nparameter W = 8;\n\n".toList := by
      cbv
    have hinputs : Text.collapseBlankLines (Template.testbenchSection "// Inputs\n"
        (Block.portDeclaration .input [⟨"a", "[W-1:0]"⟩]).toList) =
      "// Inputs\nreg  [W-1:0] a = 0;\n\n".toList := by
      cbv
    have houtputs : Text.collapseBlankLines (Template.testbenchSection "// Outputs\n"
        (Block.portDeclaration .output [⟨"b", ""⟩]).toList) =
      "// Outputs\nwire  b;\n\n".toList := by
      cbv
    have hinouts : Text.collapseBlankLines (Template.testbenchSection "// Inouts\n"
        (Block.portDeclaration .inout []).toList) = "// Inouts\n\n".toList := by
      cbv
    rw [Addressable, ← String.ofList_toList (s := Template.render _ _),
      Template.toList_render_testbench hnames, hparameters, hinputs, houtputs, hinouts]
    decide +kernel
  have hdeclares : ∀ p ∈ [⟨"a", "[W-1:0]"⟩, (⟨"b", ""⟩ : Port)],
      ∀ t ∈ (Lexing.ofSource p.range).tokens,
      t.kind ≠ .keyword .parameter ∧ t.kind.isDirection = false := by
    have hkinds : [⟨"a", "[W-1:0]"⟩, (⟨"b", ""⟩ : Port)].all (fun p =>
        (Lexing.ofSource p.range).tokens.all
        fun t => t.kind ≠ .keyword .parameter ∧ t.kind.isDirection = false) = true := by cbv
    simpa using hkinds
  exact ofSource?_render_testbench hsource (ofSource?_eq hsource) (congrArg Extraction.result hx)
    hclean hplain (List.forall_mem_singleton.2 (gapFree_of_not_mem (by decide)))
    (List.forall_mem_cons.2 ⟨gapFree_of_not_mem (by decide), List.forall_mem_singleton.2
      (gapFree_of_not_mem (by decide))⟩) hdeclares hout

end Extraction

end VerilogScaffold
