import VerilogScaffold.Command.Generate
import VerilogScaffold.Command.Signature
import VerilogScaffold.Command.Template
import VerilogScaffold.CommandLine.Reading

/-!
# The program

The program reads its command line and carries out what it asks for. It touches the world only
through files and the console.
-/

namespace VerilogScaffold

/-- How a request is reported on. Without a choice, colour is for terminals. -/
def Preferences.reporting (p : Preferences) (onTerminal : Bool) : Reporting where
  quiet := p.quiet
  colour :=
    match p.colour with
    | .auto => onTerminal
    | .always => true
    | .never => false

namespace Program

def name : String := "vgen"

def version : String := "0.1.0"

/-- What the program can be asked for, line by line. -/
def helpLines : List String :=
  ["Verilog instance and testbench generator",
    "",
    "Usage: vgen [OPTIONS] <COMMAND>",
    "",
    "Commands:",
    "  instance [-t FILE] [-o MODE] FILE...   Generate an instantiation of the first module in " ++
      "each file",
    "  testbench [-t FILE] [-o MODE] FILE...  Generate a testbench for the first module in " ++
      "each file",
    "  signature [-f FORMAT] FILE             Print the signature extracted from a source file",
    "  template list -k KIND                  List the templates of a kind",
    "  template new -k KIND NAME              Create a custom template",
    "  template show -k KIND [NAME]           Print a template",
    "  template delete -k KIND NAME           Delete a custom template",
    "",
    "Options:",
    "  -q, --quiet         Suppress all output except errors",
    "  -v, --verbose       Enable verbose output",
    "      --color CHOICE  Color reports: auto, always or never",
    "      --config FILE   Path to a configuration file",
    "  -h, --help          Print help",
    "  -V, --version       Print version"]

/-- What the program can be asked for. -/
def help : String := String.join (helpLines.map (· ++ "\n"))

variable {m : Type → Type} [Monad m] [MonadFiles m] [MonadConsole m]

/-- Carries out a command. -/
def carryOut (r : Reporting) (config? : Option Path) : Command → m (Except CommandError ExitStatus)
  | .signature source format => do return .ok (← Command.runSignature r source format)
  | .generate kind sources template? mode? => do
    match ← Workspace.load config? with
    | .error e => return .error e
    | .ok w => Command.runGenerate r w kind sources template? mode?
  | .template kind action => do
    match ← Workspace.load config? with
    | .error e => return .error e
    | .ok w => Command.runTemplate r w kind action

/-- Carries out a request. -/
def fulfil (onTerminal : Bool) (request : Request) : m ExitStatus := do
  let r := request.preferences.reporting onTerminal
  match ← carryOut r request.preferences.config? request.command with
  | .ok status => return status
  | .error e =>
    Reporting.complain e.message
    return .failure

/-- Does what a command line asks for. -/
def run (onTerminal : Bool) (arguments : List String) : m ExitStatus := do
  match CommandLine.read arguments with
  | .ok request => fulfil onTerminal request
  | .error .version =>
    MonadConsole.putOut (name ++ " " ++ version ++ "\n")
    return .success
  | .error .help =>
    MonadConsole.putOut help
    return .success
  | .error (.misuse e) =>
    Reporting.complain (e.message ++ "\n\nFor more information, try '--help'.")
    return .misuse

end Program

end VerilogScaffold
