import VerilogScaffold.Command.Program

/-!
# Running on a machine

The files and the console of the machine that the program runs on.
-/

namespace VerilogScaffold

/-- The cause of an error that the system reports, by the system's number for it, which comes with
either sign. -/
def FileError.ofCode (code : UInt32) (details : String) : FileError :=
  match (min code (0 - code)).toNat with
  | 2 => .notFound
  | 17 => .alreadyExists
  | 20 => .notADirectory
  | 21 => .isADirectory
  | 36 => .nameTooLong
  | number => .other (details ++ " (os error " ++ toString number ++ ")")

/-- The cause of an error that the system reports. -/
def FileError.ofSystem : IO.Error → FileError
  | .alreadyExists _ code details
  | .inappropriateType _ code details
  | .invalidArgument _ code details
  | .noFileOrDirectory _ code details
  | .noSuchThing _ code details
  | .permissionDenied _ code details
  | .resourceExhausted _ code details => .ofCode code details
  | .hardwareFault code details
  | .illegalOperation code details
  | .interrupted _ code details
  | .otherError code details
  | .protocolError code details
  | .resourceBusy code details
  | .resourceVanished code details
  | .timeExpired code details
  | .unsatisfiedConstraints code details
  | .unsupportedOperation code details => .ofCode code details
  | .unexpectedEof => .other "unexpected end of file"
  | .userError message => .other message

/-- Tries an action on files. -/
def attempt {α : Type} (path : Path) (action : IO α) : IO (Except FileError α) := do
  if '\x00' ∈ path.text.toList then return .error .nulInPath
  else if path.text.isEmpty then return .error .notFound
  else
    try return .ok (← action)
    catch e => return .error (.ofSystem e)

instance : MonadFiles IO where
  workingDirectory := do return ⟨(← IO.currentDir).toString⟩
  kind? path := do
    let found ← attempt path do return (← ((← IO.currentDir) / path.text).metadata).type
    match found with
    | .ok .dir => return some .directory
    | .ok _ => return some .file
    | .error _ => return none
  readBytes path := attempt path (IO.FS.readBinFile path.text)
  writeBytes path bytes := attempt path (IO.FS.writeBinFile path.text bytes)
  appendBytes path bytes := attempt path do
    (← IO.FS.Handle.mk path.text .append).write bytes
  createBytes path bytes := attempt path do
    (← IO.FS.Handle.mk path.text .writeNew).write bytes
  removeFile path := attempt path (IO.FS.removeFile path.text)
  makeDirectory path := attempt path (IO.FS.createDir path.text)
  namesIn path := attempt path do
    let entries ← ((← IO.currentDir) / path.text).readDir
    return entries.toList.map (·.fileName)

instance : MonadConsole IO where
  putOut := IO.print
  putError := IO.eprint

end VerilogScaffold

def main (arguments : List String) : IO UInt32 := do
  let onTerminal ← (← IO.getStderr).isTty
  let status : VerilogScaffold.ExitStatus ← VerilogScaffold.Program.run onTerminal arguments
  return status.code
