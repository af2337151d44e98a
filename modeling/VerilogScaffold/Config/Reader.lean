import VerilogScaffold.Config.Basic
import VerilogScaffold.Toml.Document

/-!
# Reading configurations

A configuration is written in TOML, as a table of three sections. Each section is a table of
settings by name, or an array of them in order. Settings that are left out have their defaults;
settings that are not known are refused.
-/

namespace VerilogScaffold.Config

/-- Why a text is no configuration. -/
inductive SyntaxFault
  /-- The text is no document. -/
  | noDocument
  /-- A key that is not known. -/
  | unknownKey (key : String)
  /-- A value of the wrong kind. -/
  | wrongValue (key : String)
  deriving DecidableEq

def SyntaxFault.message : SyntaxFault → String
  | .noDocument => "the text is not a TOML document"
  | .unknownKey key => "unknown key `" ++ key ++ "`"
  | .wrongValue key => "unexpected value for `" ++ key ++ "`"

open Toml (Value Entries)

/-- The settings of a section by name. Those of an array go by their order, and more of them than
there are names do not count. -/
def settings (title : String) (names : List String) : Value → Except SyntaxFault Entries
  | .table _ entries =>
    match entries.find? (!names.contains ·.1) with
    | some (key, _) => .error (.unknownKey key)
    | none => .ok entries
  | .array items => .ok (names.zip items)
  | .tables elements => .ok (names.zip (elements.map (.table .header)))
  | .text _ | .other => .error (.wrongValue title)

/-- The setting of a name, or its default. -/
def setting {α : Type} (entries : Entries) (name : String)
    (read? : Value → Option α) (default : α) :
    Except SyntaxFault α :=
  match entries.lookup name with
  | none => .ok default
  | some v =>
    match read? v with
    | some a => .ok a
    | none => .error (.wrongValue name)

def text? : Value → Option String
  | .text s => some s
  | _ => none

/-- Whether a value is a table or an array with nothing in it. -/
def isEmptyCollection : Value → Bool
  | .table _ [] | .array [] | .tables [] => true
  | _ => false

/-- An output mode is a word, or a table with that word as its one key and nothing as its value. -/
def mode? : Value → Option OutputMode
  | .text s => OutputMode.ofWord? s
  | .table _ [(word, content)] =>
    if isEmptyCollection content then OutputMode.ofWord? word else none
  | _ => none

/-- The section of a name, if the document has it. -/
def section? {α : Type} (document : Entries) (name : String) (default : α)
    (read : Value → Except SyntaxFault α) : Except SyntaxFault α :=
  match document.lookup name with
  | none => .ok default
  | some v => read v

def readTemplates (v : Value) : Except SyntaxFault TemplateSettings := do
  let entries ← settings "templates" ["custom_dir", "instance", "testbench"] v
  return ⟨← setting entries "custom_dir" text? TemplateSettings.default.customDir,
    ← setting entries "instance" (fun v => (text? v).map some) none,
    ← setting entries "testbench" (fun v => (text? v).map some) none⟩

def readOutput (kind : ScaffoldKind) (v : Value) : Except SyntaxFault OutputSettings := do
  let entries ← settings kind.word ["output", "output_dir", "file_name"] v
  return ⟨← setting entries "output" mode? OutputSettings.default.mode,
    ← setting entries "output_dir" text? OutputSettings.default.directory,
    ← setting entries "file_name" (fun v => (text? v).map some) none⟩

/-- Reads a text as a configuration, without checking it. -/
def ofToml (text : String) : Except SyntaxFault Config := do
  match Toml.ofString? text with
  | none => .error .noDocument
  | some entries =>
    let document ← settings "document" ["templates", "instance", "testbench"]
      (.table .header entries)
    return ⟨← section? document "templates" .default readTemplates,
      ← section? document "instance" .default (readOutput .instantiation),
      ← section? document "testbench" .default (readOutput .testbench)⟩

/-- Why a text is not taken as a configuration. -/
inductive Refusal
  | malformed (fault : SyntaxFault)
  | faulty (fault : Fault)
  deriving DecidableEq

def Refusal.message : Refusal → String
  | .malformed fault => "failed to parse configuration: " ++ fault.message
  | .faulty fault => "validation error: " ++ fault.message

/-- Reads a text as a configuration and checks it. -/
def ofString (text : String) : Except Refusal Config :=
  match ofToml text with
  | .error fault => .error (.malformed fault)
  | .ok config =>
    match config.fault? with
    | some fault => .error (.faulty fault)
    | none => .ok config

end VerilogScaffold.Config
