import VerilogScaffold.Diagnostic.Sink
import VerilogScaffold.Files.Tree
import VerilogScaffold.Main
import VerilogScaffold.Proofs.FirstModule
import VerilogScaffold.Proofs.Relocation
import VerilogScaffold.Proofs.Boundary
import VerilogScaffold.Proofs.Statement
import VerilogScaffold.Proofs.Stretch
import VerilogScaffold.Proofs.Event
import VerilogScaffold.Proofs.Line
import VerilogScaffold.Proofs.Stripping
import VerilogScaffold.Proofs.Lookup
import VerilogScaffold.Proofs.Reading
import VerilogScaffold.Proofs.Place
import VerilogScaffold.Proofs.Scan
import VerilogScaffold.Proofs.Safety
import VerilogScaffold.Proofs.FirstModuleOnly
import VerilogScaffold.Proofs.BlockInsertion
import VerilogScaffold.Proofs.Header
import VerilogScaffold.Proofs.HeaderReading
import VerilogScaffold.Proofs.HeaderExtraction
import VerilogScaffold.Token.ByteLexer
import VerilogScaffold.Proofs.ByteLexer
import VerilogScaffold.Proofs.Lookahead
import VerilogScaffold.Proofs.Site
import VerilogScaffold.Proofs.Cut
import VerilogScaffold.Proofs.Name
import VerilogScaffold.Proofs.Finding
import VerilogScaffold.Proofs.Excerpt
import VerilogScaffold.Proofs.Connection
import VerilogScaffold.Proofs.Padding
import VerilogScaffold.Proofs.Legibility
import VerilogScaffold.Proofs.Composition
import VerilogScaffold.Proofs.ParameterDeclaration
import VerilogScaffold.Proofs.BlankLines
import VerilogScaffold.Proofs.Substitution
import VerilogScaffold.Proofs.PortDeclaration
import VerilogScaffold.Proofs.SolidBlock
import VerilogScaffold.Proofs.Testbench
import VerilogScaffold.Proofs.Blanking
import VerilogScaffold.Proofs.Failure
import VerilogScaffold.Proofs.OpenBracket
import VerilogScaffold.Proofs.TypeWord
import VerilogScaffold.Proofs.Comment
import VerilogScaffold.Proofs.CommentReading
import VerilogScaffold.Proofs.LayoutIndependence
import VerilogScaffold.Proofs.Tiling
import VerilogScaffold.Proofs.Machine
import VerilogScaffold.Proofs.Walk
import VerilogScaffold.Proofs.Turn
import VerilogScaffold.Proofs.Batch
import VerilogScaffold.Proofs.Directory
import VerilogScaffold.Proofs.TemplateFile
import VerilogScaffold.Proofs.Catalog
import VerilogScaffold.Proofs.Joining
import VerilogScaffold.Proofs.LogicalLine
import VerilogScaffold.Proofs.TokenEnd
import VerilogScaffold.Proofs.ParameterValue
import VerilogScaffold.Proofs.SoundTree
import VerilogScaffold.Proofs.Listing
import VerilogScaffold.Proofs.TokenText
import VerilogScaffold.Proofs.ClosedGaps
import VerilogScaffold.Proofs.Rendering
import VerilogScaffold.Proofs.Alignment
import VerilogScaffold.Proofs.LineIndex
import VerilogScaffold.Proofs.RootedTree
import VerilogScaffold.Proofs.Deliveries
import VerilogScaffold.Proofs.Underline
import VerilogScaffold.Proofs.DisplayedLine
import VerilogScaffold.Proofs.LexicalError
import VerilogScaffold.Proofs.FindingOrder
import VerilogScaffold.Proofs.DiagnosticOrder
import VerilogScaffold.Proofs.SharedSink
import VerilogScaffold.Proofs.JsonText
import VerilogScaffold.Proofs.JsonRecord
import VerilogScaffold.Proofs.BlockRemoval
