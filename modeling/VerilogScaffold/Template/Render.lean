import VerilogScaffold.Template.BlankLines
import VerilogScaffold.Template.Kind
import VerilogScaffold.Template.Placeholder

/-!
# Rendering

A template is rendered for a signature by filling in its placeholders and then closing the gaps that
empty blocks leave. Rendering cannot fail. A template of each kind comes with the program.
-/

namespace VerilogScaffold.Template

/-- Fills a template in for a module. -/
def render (template : String) (s : Signature) : String :=
  String.ofList (Text.collapseBlankLines (Placeholder.substitute s template.toList))

/-- The lines of the bundled template for instantiations. -/
def instantiationLines : List String :=
  ["$\x7bMODULE_NAME\x7d $\x7bPARAMETER_DEFINITION\x7d u_$\x7bMODULE_NAME\x7d (",
    "$\x7bPORT_CONNECTION\x7d",
    ");"]

/-- The lines of the bundled template for testbenches. The instance in it is the one of the bundled
template for instantiations. -/
def testbenchLines : List String :=
  ["`timescale 1ns / 1ps",
    "",
    "module tb_$\x7bMODULE_NAME\x7d;",
    "",
    "// Parameters",
    "$\x7bPARAMETER_DECLARATION\x7d",
    "",
    "// Inputs",
    "$\x7bINPUT_DECLARATION\x7d",
    "",
    "// Outputs",
    "$\x7bOUTPUT_DECLARATION\x7d",
    "",
    "// Inouts",
    "$\x7bINOUT_DECLARATION\x7d",
    ""] ++ instantiationLines ++
  ["",
    "initial begin",
    "    $dumpfile(\"tb_$\x7bMODULE_NAME\x7d.vcd\");",
    "    $dumpvars(0, tb_$\x7bMODULE_NAME\x7d);",
    "end",
    "",
    "initial begin",
    "    #1000;",
    "    $finish;",
    "end",
    "",
    "endmodule"]

/-- The template of a kind that comes with the program. Every line of it ends in a newline. -/
def bundled (kind : ScaffoldKind) : String :=
  let lines := match kind with
    | .instantiation => instantiationLines
    | .testbench => testbenchLines
  String.join (lines.map (· ++ "\n"))

end VerilogScaffold.Template
