import VerilogScaffold.Signature.Basic

/-!
# Kinds of token

Only the keywords that shape a module's signature have a kind of their own. Every other word,
reserved or not, is an identifier, which the reading of signatures steps over.

Keywords are grouped by the role they play: `Direction`, `NetType` and `Block` are the families
whose members behave alike, and brackets come as an opening and a closing form of three shapes.
-/

namespace VerilogScaffold

/-- The types of nets and variables that have a keyword. -/
inductive NetType
  | wire
  | reg
  | logic
  | tri
  | wand
  | wor
  | supply0
  | supply1
  | integer
  | real
  | time
  deriving DecidableEq

def NetType.keyword : NetType → String
  | .wire => "wire"
  | .reg => "reg"
  | .logic => "logic"
  | .tri => "tri"
  | .wand => "wand"
  | .wor => "wor"
  | .supply0 => "supply0"
  | .supply1 => "supply1"
  | .integer => "integer"
  | .real => "real"
  | .time => "time"

def NetType.all : List NetType :=
  [.wire, .reg, .logic, .tri, .wand, .wor, .supply0, .supply1, .integer, .real, .time]

/-- The subprogram blocks, whose local declarations are no part of a signature. -/
inductive Block
  | task
  | function
  deriving DecidableEq

/-- The keyword that opens a block. -/
def Block.keyword : Block → String
  | .task => "task"
  | .function => "function"

/-- The keywords that shape a signature. -/
inductive Keyword
  | moduleOpen
  | moduleClose
  | parameter
  | localparam
  | blockOpen (block : Block)
  | blockClose (block : Block)
  | direction (direction : Direction)
  | netType (type : NetType)
  | signed
  | unsigned
  deriving DecidableEq

/-- The spelling of a keyword; keywords are case-sensitive. -/
def Keyword.spelling : Keyword → String
  | .moduleOpen => "module"
  | .moduleClose => "endmodule"
  | .parameter => "parameter"
  | .localparam => "localparam"
  | .blockOpen b => b.keyword
  | .blockClose b => "end" ++ b.keyword
  | .direction d => d.keyword
  | .netType t => t.keyword
  | .signed => "signed"
  | .unsigned => "unsigned"

/-- Every keyword. -/
def Keyword.all : List Keyword :=
  [.moduleOpen, .moduleClose, .parameter, .localparam, .blockOpen .task, .blockClose .task,
    .blockOpen .function, .blockClose .function] ++ Direction.all.map .direction ++
    NetType.all.map .netType ++ [.signed, .unsigned]

/-- The keyword a word spells, if any. -/
def Keyword.ofSpelling? (word : String) : Option Keyword :=
  Keyword.all.find? (·.spelling == word)

/-- The shapes of bracket. -/
inductive Bracket
  | paren
  | square
  | brace
  deriving DecidableEq

/-- What a token is. -/
inductive TokenKind
  | keyword (keyword : Keyword)
  | number
  | stringLiteral
  | opening (bracket : Bracket)
  | closing (bracket : Bracket)
  | comma
  | semicolon
  /-- A lone `=`; comparisons are operators. -/
  | equals
  | hash
  | operator
  | identifier
  | escapedIdentifier
  | systemIdentifier
  | macroUsage
  /-- The end of the source. -/
  | eof
  /-- Malformed text. -/
  | error
  deriving DecidableEq

namespace TokenKind

def isDirection : TokenKind → Bool
  | .keyword (.direction _) => true
  | _ => false

def isNetType : TokenKind → Bool
  | .keyword (.netType _) => true
  | _ => false

/-- Whether a token can stand before a name as part of its type. -/
def isQualifier (kind : TokenKind) : Bool :=
  kind.isNetType || kind == .keyword .signed || kind == .keyword .unsigned

/-- Plain and escaped identifiers. -/
def isIdentifier : TokenKind → Bool
  | .identifier | .escapedIdentifier => true
  | _ => false

/-- The words that can name a type: identifiers and text macros. -/
def isTypeWord : TokenKind → Bool
  | .identifier | .macroUsage => true
  | _ => false

end TokenKind

/-- The name of a keyword in machine-readable output: its spelling with a capital letter. -/
def Keyword.label (k : Keyword) : String :=
  match k.spelling.toList with
  | [] => ""
  | c :: cs => String.ofList (c.toUpper :: cs)

/-- The name of a kind of token in machine-readable output. -/
def TokenKind.label : TokenKind → String
  | .keyword k => k.label
  | .number => "Number"
  | .stringLiteral => "StringLiteral"
  | .opening .paren => "LeftParen"
  | .closing .paren => "RightParen"
  | .opening .square => "LeftBracket"
  | .closing .square => "RightBracket"
  | .opening .brace => "LeftBrace"
  | .closing .brace => "RightBrace"
  | .comma => "Comma"
  | .semicolon => "Semicolon"
  | .equals => "Equals"
  | .hash => "Hash"
  | .operator => "Operator"
  | .identifier => "Identifier"
  | .escapedIdentifier => "EscapedIdentifier"
  | .systemIdentifier => "SystemIdentifier"
  | .macroUsage => "MacroUsage"
  | .eof => "Eof"
  | .error => "Error"

/-- Every kind of token. -/
def TokenKind.all : List TokenKind :=
  Keyword.all.map .keyword ++
    [.number, .stringLiteral, .opening .paren, .closing .paren, .opening .square, .closing .square,
      .opening .brace, .closing .brace, .comma, .semicolon, .equals, .hash, .operator, .identifier,
      .escapedIdentifier, .systemIdentifier, .macroUsage, .eof, .error]

/-! ## Looking keywords up -/

theorem Keyword.mem_all (k : Keyword) : k ∈ Keyword.all := by
  cases k with
  | blockOpen b => cases b <;> decide
  | blockClose b => cases b <;> decide
  | direction d => cases d <;> decide
  | netType t => cases t <;> decide
  | _ => decide

/-- A word is looked up as a keyword exactly when it is that keyword's spelling. -/
theorem Keyword.ofSpelling?_eq_some_iff {word : String} {k : Keyword} :
    ofSpelling? word = some k ↔ k.spelling = word := by
  refine ⟨fun h => by simpa using List.find?_some h, ?_⟩
  rintro rfl
  cases k with
  | blockOpen b => cases b <;> decide
  | blockClose b => cases b <;> decide
  | direction d => cases d <;> decide
  | netType t => cases t <;> decide
  | _ => decide

end VerilogScaffold
