import VerilogScaffold.Signature.Block
import VerilogScaffold.Signature.Scanner
import VerilogScaffold.Token.ByteLexer

/-!
# Extracting signatures

Extraction reads a source into tokens, takes subprogram blocks out, reads the outline of the first
module, and looks up what the outline's tokens say. It always says everything it has to say:
diagnostics come out phase by phase (lexical ones, unclosed blocks, then the reading of the module),
and within a phase in source order.

Three things can fail: a step over the bytes of the source, a step over the tokens, be it to strip
or to scan them, and looking a run of tokens up, if its place does not lie on the source.
`Extraction.ofSource?` keeps these cases apart as `none`; `Extraction.ofSource` is for those who
have no use for them.
-/

namespace VerilogScaffold

/-- The text of an error. -/
def ExtractError.message {Place : Type} : ExtractError Place → String
  | .noModule => "no module declaration found"
  | .missingEndmodule _ => "module declaration is not closed by `endmodule`"
  | .missingName _ => "expected a module name after `module`"

/-- The place of an error, if it has one. -/
def ExtractError.span? : ExtractError Span → Option Span
  | .noModule => none
  | .missingEndmodule opener => some opener.span
  | .missingName found => some found.span

/-- The diagnostic that goes with an error. -/
def ExtractError.diagnostic : ExtractError Span → Diagnostic
  | .noModule =>
    (Diagnostic.error 201 ((ExtractError.noModule : ExtractError Span).message) .dummy).withHelp
      "the input must contain `module <name> ... endmodule`"
  | .missingEndmodule opener => .error 202 (message (.missingEndmodule opener)) opener.span
  | .missingName found => .error 203 (message (.missingName found)) found.span

/-- The span of a run of tokens. -/
def Extent.span (e : Extent Span) : Span := e.first.span.merge e.last.span

/-- The diagnostic for a remark on a source. -/
def Remark.diagnostic? (source : String) : Remark Span → Option Diagnostic
  | .parameterWithoutName keyword =>
    some (.warning 302 "`parameter` is not followed by a name" keyword.span)
  | .parameterWithoutValue name => do
    let text ← name.span.text? source
    return .warning 302 ("parameter `" ++ text ++ "` has no value and is skipped") name.span
  | .parameterWithEmptyValue name => do
    let text ← name.span.text? source
    return .warning 302 ("parameter `" ++ text ++ "` has an empty value and is skipped") name.span
  | .portDefault name => do
    let text ← name.span.text? source
    return (Diagnostic.warning 301 ("default value of port `" ++ text ++ "` discarded")
      name.span).withNote "generated declarations never carry port defaults"
  | .noPorts direction keyword _ =>
    some (.warning 303 ("`" ++ direction.keyword ++ "` declares no port names") keyword.span)

namespace Signature

/-- A signature without parameters and ports. -/
def ofName (name : String) : Signature := ⟨name, [], [], [], []⟩

/-- Adds a port in front of those of its direction. -/
def consPort (s : Signature) (p : Port) : Direction → Signature
  | .input => { s with inputs := p :: s.inputs }
  | .output => { s with outputs := p :: s.outputs }
  | .inout => { s with inouts := p :: s.inouts }

/-- The text of a range, which is empty where there is none. -/
def rangeText? (source : String) (range : Option (Extent Span)) : Option String :=
  (range.map (·.span.text? source)).getD (some "")

/-- Adds what a finding declares in front of what a signature already holds. The range of a clause
is cut out of the source before its names are read, and so also where there are none. -/
def consFinding? (source : String) (f : Finding Span) (s : Signature) : Option Signature :=
  match f with
  | .parameter name value => do
    let name ← name.span.text? source
    let value ← value.span.text? source
    return { s with parameters := ⟨name, value⟩ :: s.parameters }
  | .port direction name range => do
    let name ← name.span.text? source
    let range ← rangeText? source range
    return s.consPort ⟨name, range⟩ direction
  | .remark (.noPorts _ _ range) => do
    let _ ← rangeText? source range
    return s
  | .remark _ => some s

/-- Looks up in the source what an outline's tokens say. -/
def ofOutline? (source : String) (o : Outline Span) : Option Signature := do
  let name ← o.name.span.text? source
  o.findings.foldr (fun f s => s.bind (consFinding? source f)) (some (ofName name))

end Signature

namespace Outline

/-- The diagnostic for a module whose name is an escaped identifier. -/
def nameDiagnostics? (source : String) (o : Outline Span) : Option (List Diagnostic) :=
  if o.name.kind = .escapedIdentifier then do
    let text ← o.name.span.text? source
    return [((Diagnostic.warning 305 ("module name `" ++ text ++ "` is an escaped identifier")
      o.name.span).withNote
        "escaped names end at whitespace; generated text adds a space after them").withHelp
        ("template text joined to `$\x7bMODULE_NAME\x7d`, " ++
          "such as `u_$\x7bMODULE_NAME\x7d`, must be edited by hand")]
  else some []

/-- The diagnostics for what an outline leaves out. -/
def remarkDiagnostics? (source : String) (o : Outline Span) : Option (List Diagnostic) :=
  (o.findings.filterMap fun
    | .remark r => some r
    | _ => none).mapM (Remark.diagnostic? source)

end Outline

/-- What extraction makes of a source: a signature or an error, and all diagnostics in the order in
which they arise. -/
structure Extraction where
  result : Except (ExtractError Span) Signature
  diagnostics : List Diagnostic

namespace Extraction

/-- Reads the signature of the first module of a source off its tokens. -/
def ofLexing? (source : String) (lexing : Lexing) : Option Extraction := do
  let stripped ← Stripped.ofTokens? lexing.tokens.toArray
  let early := lexing.diagnostics ++ stripped.diagnostics
  match ← Outline.ofTokens? stripped.tokens with
  | .error e => return ⟨.error e, early ++ [e.diagnostic]⟩
  | .ok outline => do
    let signature ← Signature.ofOutline? source outline
    let onName ← outline.nameDiagnostics? source
    let onRest ← outline.remarkDiagnostics? source
    return ⟨.ok signature, early ++ onName ++ onRest⟩

/-- Reads the signature of the first module of a source. -/
def ofSource? (source : String) : Option Extraction :=
  (Lexing.ofSource? source).bind (ofLexing? source)

/-- Reads the signature of the first module of a source, taking a failure for a source without a
module. -/
def ofSource (source : String) : Extraction :=
  (ofSource? source).getD ⟨.error .noModule, [ExtractError.diagnostic .noModule]⟩

end Extraction

end VerilogScaffold
