import VerilogScaffold.Proofs.Composition
import VerilogScaffold.Proofs.Safety

/-!
# Parameter declarations keep their meaning

The declarations that are generated for the parameters of a module declare the same parameters
again, in order and with the same values (`Extraction.parameters_parameterDeclaration`). Values may
gain blanks at their end: a number that ends in its base takes the padding in.

Names are written with a space behind them if they are escaped, but values are not. A value that
ends in an escaped name runs on over the semicolon unless the padding of its column ends it, so
such a value has to be shorter than the widest. `parameters_parameterDeclaration_unpadded` shows
what is read where it is not.
-/

namespace VerilogScaffold

open Text Segment

/-- Whether the column of values ends every escaped name at the end of a value. -/
def Block.Padded (ps : List Parameter) : Prop :=
  ∀ p ∈ ps, endsInEscapedName p.value.toList = true →
    p.value.length < widest (ps.map Parameter.value)

/-- The block of declarations in front of the rest of a module. -/
theorem Completes.parameterDeclaration {cs F : List Char} {ps qs : List Parameter}
    (hps : ∀ p ∈ ps, p.Legible cs) (hpadded : Block.Padded ps) (h : Completes F qs) :
    Completes ((Block.parameterDeclaration ps).toList ++ F) (ps ++ qs) := by
  have hline : ∀ p ∈ ps, ∀ {F qs}, Completes F qs →
      Completes (("parameter " ++
        padRight (widest (ps.map Parameter.writtenName)) p.writtenName ++ " = " ++
        padRight (widest (ps.map Parameter.value)) p.value ++ ";").toList ++ F) ([p] ++ qs) := by
    intro p hp F qs hF
    obtain ⟨k, hname, -⟩ := exists_toList_padRight_terminatedName
      (widest (ps.map Parameter.writtenName)) p.name
    have hcut : ("parameter " ++ padRight (widest (ps.map Parameter.writtenName)) p.writtenName ++
        " = " ++ padRight (widest (ps.map Parameter.value)) p.value ++ ";").toList ++ F =
        "parameter ".toList ++
          (p.name.toList ++ (List.replicate k ' ' ++ (" = ".toList ++ (p.value.toList ++
          (List.replicate (widest (ps.map Parameter.value) - p.value.length) ' ' ++ ';' :: F))))) :=
        by
      simp only [String.toList_append, Parameter.writtenName, hname, toList_padRight,
        List.append_assoc]
      rfl
    rw [hcut]
    exact hF.parameter (hps p hp) fun hescaped => Nat.sub_pos_of_lt (hpadded p hp hescaped)
  have := lines hline h
  rwa [List.flatMap_singleton'] at this

namespace Extraction

/-- **Parameter declarations keep their meaning.** The declarations that are generated for the
parameters of a clean source declare the same parameters, up to blanks at the end of a value. -/
theorem parameters_parameterDeclaration {source : String} (ha : Addressable source) {x : Extraction}
    (hx : ofSource? source = some x) {s : Signature} (hs : x.result = .ok s) (hclean : x.Clean)
    (hpadded : Block.Padded s.parameters)
    (hout : Addressable
      ("module t;\n" ++ Placeholder.parameterDeclaration.expand s ++ "\nendmodule")) :
    ∃ y t, ofSource? ("module t;\n" ++ Placeholder.parameterDeclaration.expand s ++
      "\nendmodule") = some y ∧
      y.result = .ok t ∧
      t.parameters.map Parameter.trimmed = s.parameters.map Parameter.trimmed := by
  have hlegible := hclean.legible ha hx hs
  -- from `endmodule` back to `module`
  have hend : Completes ('\n' :: "endmodule".toList) [] :=
    (Completes.endmodule Keeps.nil rfl).blank rfl
  have hbody := (hend.parameterDeclaration hlegible.parameter hpadded).blank (c := '\n') rfl
  have hname : IsName ['t'] := .plain rfl (by simp) rfl
  have hmodule := hbody.module hname (by decide)
  have htext : ("module t;\n" ++ Placeholder.parameterDeclaration.expand s ++
      "\nendmodule").toList = "module ".toList ++ (['t'] ++ ';' :: '\n' ::
        ((Block.parameterDeclaration s.parameters).toList ++ '\n' :: "endmodule".toList)) := by
    rw [String.toList_append, String.toList_append, List.append_assoc]
    rfl
  rw [← htext, List.append_nil] at hmodule
  obtain ⟨y, qs, hy, hresult, hqs⟩ := hmodule.exists_result hout
  exact ⟨y, _, hy, hresult, hqs⟩

/-- Values that end in an escaped name, in a number's base and in a string. -/
theorem parameters_parameterDeclaration_columns :
    ∃ y t, ofSource?
      "module t;\nparameter A = \\B    ;\nparameter C = 4'h   ;\nparameter D = \"long\";\nendmodule"
        = some y ∧
      y.result = .ok t ∧ t.parameters.map Parameter.trimmed =
        [⟨"A", "\\B"⟩, ⟨"C", "4'h"⟩, ⟨"D", "\"long\""⟩] := by
  have hsource : Addressable "module m; parameter A = \\B , C = 4'h , D = \"long\"; endmodule" := by
    decide
  have hx : ofSource "module m; parameter A = \\B , C = 4'h , D = \"long\"; endmodule" =
      ⟨.ok ⟨"m", [⟨"A", "\\B"⟩, ⟨"C", "4'h "⟩, ⟨"D", "\"long\""⟩], [], [], []⟩, []⟩ := by
    rw [ofSource, ofSource?_eq_ofLexing?]
    cbv
  have hclean : (ofSource
      "module m; parameter A = \\B , C = 4'h , D = \"long\"; endmodule").Clean := by
    rw [hx]
    decide
  have hpadded : Block.Padded [⟨"A", "\\B"⟩, ⟨"C", "4'h "⟩, ⟨"D", "\"long\""⟩] :=
    List.forall_mem_cons.2 ⟨fun _ => by decide, List.forall_mem_cons.2 ⟨fun _ => by decide,
      List.forall_mem_singleton.2 fun h => absurd h (by cbv; decide)⟩⟩
  have htext : "module t;\n" ++ Placeholder.parameterDeclaration.expand
      ⟨"m", [⟨"A", "\\B"⟩, ⟨"C", "4'h "⟩, ⟨"D", "\"long\""⟩], [], [], []⟩ ++ "\nendmodule" =
      "module t;\nparameter A = \\B    ;\nparameter C = 4'h   ;\nparameter D = \"long\";\nendmodule"
        := by
    decide
  have := parameters_parameterDeclaration hsource (ofSource?_eq hsource)
    (congrArg Extraction.result hx) hclean hpadded
    (by rw [htext]; decide)
  rwa [htext] at this

/-- An escaped name that fills the column of values takes the semicolon behind it in. -/
theorem parameters_parameterDeclaration_unpadded :
    ∃ x s y t, ofSource? "module m; parameter A = \\B ; endmodule" = some x ∧
      x.result = .ok s ∧ x.Clean ∧
      s.parameters = [⟨"A", "\\B"⟩] ∧
      ofSource? ("module t;\n" ++ Placeholder.parameterDeclaration.expand s ++
        "\nendmodule") = some y ∧
      y.result = .ok t ∧ t.parameters = [⟨"A", "\\B;"⟩] := by
  have hsource : Addressable "module m; parameter A = \\B ; endmodule" := by decide
  have hout : Addressable "module t;\nparameter A = \\B;\nendmodule" := by decide
  have hx : ofSource "module m; parameter A = \\B ; endmodule" =
      ⟨.ok ⟨"m", [⟨"A", "\\B"⟩], [], [], []⟩, []⟩ := by
    rw [ofSource, ofSource?_eq_ofLexing?]
    cbv
  have hclean : (ofSource "module m; parameter A = \\B ; endmodule").Clean := by
    rw [hx]
    decide
  have hagain : (ofSource "module t;\nparameter A = \\B;\nendmodule").result =
      .ok ⟨"t", [⟨"A", "\\B;"⟩], [], [], []⟩ := by
    rw [ofSource, ofSource?_eq_ofLexing?]
    cbv
  exact ⟨_, _, _, _, ofSource?_eq hsource, congrArg Extraction.result hx, hclean, rfl,
    ofSource?_eq hout, hagain, rfl⟩

end Extraction

end VerilogScaffold
