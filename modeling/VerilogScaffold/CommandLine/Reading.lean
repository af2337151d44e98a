import VerilogScaffold.CommandLine.Argument
import VerilogScaffold.CommandLine.Level

/-!
# Reading command lines

A command line is read from left to right, one argument at a time; `Progress.step` says what an
argument adds to what was read so far, and `Progress.finish` makes a request of all of it. Mistakes
count as soon as they are met, before anything that comes later.

An option may be given once on each level. Where levels differ, the innermost one counts.
-/

namespace VerilogScaffold.CommandLine

/-- What was read so far. -/
structure Progress where
  level : Level
  /-- The settings of the levels above, the latest first. -/
  outer : List Setting
  /-- The settings of this level, the latest first. -/
  settings : List Setting
  /-- The arguments, the latest first. -/
  words : List String
  /-- The option whose value comes next. -/
  pending? : Option OptionName
  /-- Whether dashes have lost their meaning. -/
  literal : Bool

namespace Progress

/-- Nothing was read yet. -/
def start : Progress := ⟨.root, [], [], [], none, false⟩

/-! ## Steps -/

/-- Takes a setting in, which must be the first of its option on this level. -/
def record (p : Progress) (s : Setting) : Except Halt Progress :=
  if p.settings.any (·.name == s.name) then .error (.misuse (.repeatedOption s.name))
  else .ok { p with settings := s :: p.settings, pending? := none }

/-- Takes in the value of an option. -/
def giveValue (p : Progress) (name : OptionName) (value : String) : Except Halt Progress :=
  match name.rule with
  | .valued read? =>
    match read? value with
    | some s => p.record s
    | none => .error (.misuse (.invalidValue name value))
  | _ => .error (.misuse (.attachedValue name value))

/-- Takes in an option without an attached value. -/
def giveOption (p : Progress) (name : OptionName) : Except Halt Progress :=
  match name.rule with
  | .flag s => p.record s
  | .valued _ => .ok { p with pending? := some name }
  | .halt cause => .error cause

/-- Takes in a cluster of short options. What follows an option that needs a value is that value,
with or without an equals sign before it. -/
def giveCluster (p : Progress) : List Char → Except Halt Progress
  | [] => .ok p
  | c :: rest =>
    match p.level.options.find? (·.short? == some c) with
    | none => .error (.misuse (.unknownOption (String.ofList ['-', c])))
    | some name =>
      match name.rule, rest with
      | .valued _, '=' :: value => p.giveValue name (String.ofList value)
      | .valued _, c :: value => p.giveValue name (String.ofList (c :: value))
      | _, rest => do giveCluster (← p.giveOption name) rest

/-- Takes in a long option. -/
def giveLong (p : Progress) (long : String) (attached? : Option String) : Except Halt Progress :=
  match p.level.options.find? (·.long == long) with
  | none => .error (.misuse (.unknownOption ("--" ++ long)))
  | some name =>
    match attached? with
    | none => p.giveOption name
    | some value => p.giveValue name value

/-- Takes in a word that is an argument. -/
def giveWord (p : Progress) (word : String) : Except Halt Progress :=
  if p.level.takesArguments then .ok { p with words := word :: p.words }
  else .error (.misuse (.unexpectedWord word))

/-- Goes on to another level. -/
def enter (p : Progress) (level : Level) : Progress :=
  { p with level := level, outer := p.settings ++ p.outer, settings := [] }

/-- Takes in an argument. -/
def step (p : Progress) (argument : String) : Except Halt Progress :=
  if p.literal then p.giveWord argument
  else
    match p.pending?, Argument.ofString argument with
    -- a value may well be the name of a level, so this comes before going on to one
    | some name, .word value => p.giveValue name value
    | some name, _ => .error (.misuse (.missingValue name))
    | none, .word word =>
      match p.level.descend? word with
      | some level => .ok (p.enter level)
      | none => p.giveWord word
    | none, .separator => .ok { p with literal := true }
    | none, .long name attached? => p.giveLong name attached?
    | none, .cluster cs => p.giveCluster cs

/-! ## Requests -/

/-- The settings of all levels, the innermost first. -/
def allSettings (p : Progress) : List Setting := p.settings ++ p.outer

def preferences (p : Progress) : Preferences where
  quiet := p.allSettings.contains .quiet
  verbose := p.allSettings.contains .verbose
  colour := (p.allSettings.findSome? fun
    | .colour choice => some choice
    | _ => none).getD .auto
  config? := p.allSettings.findSome? fun
    | .config path => some path
    | _ => none

def template? (p : Progress) : Option Path :=
  p.settings.findSome? fun
    | .template path => some path
    | _ => none

def output? (p : Progress) : Option OutputMode :=
  p.settings.findSome? fun
    | .output mode => some mode
    | _ => none

def format? (p : Progress) : Option SignatureFormat :=
  p.settings.findSome? fun
    | .format format => some format
    | _ => none

def kind? (p : Progress) : Option ScaffoldKind :=
  p.settings.findSome? fun
    | .kind kind => some kind
    | _ => none

/-- A word as the path of a source. -/
def source (word : String) : Except UsageError Path :=
  match file? word with
  | some path => .ok path
  | none => .error (.emptyWord "FILE")

/-- What is to be done with templates. -/
def action (verb : TemplateVerb) (words : List String) : Except UsageError TemplateAction :=
  match verb, words with
  | .list, [] => .ok .list
  | .new, [name] => .ok (.new name)
  | .print, [] => .ok (.print none)
  | .print, [name] => .ok (.print (some name))
  | .delete, [name] => .ok (.delete name)
  | .new, [] | .delete, [] => .error (.missingWord "NAME")
  | .list, word :: _ => .error (.unexpectedWord word)
  | _, _ :: word :: _ => .error (.unexpectedWord word)

/-- The command that was read. -/
def command (p : Progress) : Except UsageError Command :=
  match p.level, p.words.reverse with
  | .root, _ | .template, _ => .error .missingCommand
  | .generate _, [] | .signature, [] => .error (.missingWord "FILE")
  | .generate kind, words => do
    return .generate kind (← words.mapM source) p.template? p.output?
  | .signature, [word] => do return .signature (← source word) (p.format?.getD .text)
  | .signature, _ :: word :: _ => .error (.unexpectedWord word)
  | .action verb, words => do
    match p.kind? with
    | none => .error (.missingOption .kind)
    | some kind => return .template kind (← action verb words)

/-- The request that was read. -/
def finish (p : Progress) : Except Halt Request :=
  match p.pending? with
  | some name => .error (.misuse (.missingValue name))
  | none =>
    match p.command with
    | .ok command => .ok ⟨p.preferences, command⟩
    | .error e => .error (.misuse e)

end Progress

/-- Reads a command line. -/
def read (arguments : List String) : Except Halt Request :=
  arguments.foldlM Progress.step Progress.start >>= Progress.finish

end VerilogScaffold.CommandLine
