import VerilogScaffold.Path

/-!
# Files and the console

What the program does to files and to the console goes through two interfaces, so that the same
commands run on the files of a machine and on a tree of files in memory.

An operation on files answers with an error instead of its result when it fails, and then has
changed nothing. Files hold bytes; `readText` and its like are for texts in UTF-8.
-/

namespace VerilogScaffold

/-- Why an operation on files failed. -/
inductive FileError
  | notFound
  | alreadyExists
  | notADirectory
  | isADirectory
  | nameTooLong
  /-- The bytes of a file are not UTF-8. -/
  | invalidText
  /-- A path has a NUL byte in it. -/
  | nulInPath
  /-- Anything else, in the words of the system. -/
  | other (message : String)
  deriving DecidableEq

/-- The text of an error, with the system's number for it if it has one. -/
def FileError.message : FileError → String
  | .notFound => "No such file or directory (os error 2)"
  | .alreadyExists => "File exists (os error 17)"
  | .notADirectory => "Not a directory (os error 20)"
  | .isADirectory => "Is a directory (os error 21)"
  | .nameTooLong => "File name too long (os error 36)"
  | .invalidText => "stream did not contain valid UTF-8"
  | .nulInPath => "file name contained an unexpected NUL byte"
  | .other message => message

/-- What a path leads to. -/
inductive FileKind
  | file
  | directory
  deriving DecidableEq

/-- Operations on files. Relative paths start at the working directory. -/
class MonadFiles (m : Type → Type) where
  /-- The absolute path of the working directory. -/
  workingDirectory : m Path
  /-- What a path leads to, if anything. -/
  kind? : Path → m (Option FileKind)
  readBytes : Path → m (Except FileError ByteArray)
  /-- Replaces the content of a file, which need not be there yet. -/
  writeBytes : Path → ByteArray → m (Except FileError Unit)
  /-- Adds to the end of a file that is there. -/
  appendBytes : Path → ByteArray → m (Except FileError Unit)
  /-- Writes a file that must not be there yet. -/
  createBytes : Path → ByteArray → m (Except FileError Unit)
  removeFile : Path → m (Except FileError Unit)
  /-- Makes one directory, which must not be there yet. -/
  makeDirectory : Path → m (Except FileError Unit)
  /-- The names in a directory, in no particular order. -/
  namesIn : Path → m (Except FileError (List String))

/-- Output to the two streams of a console. -/
class MonadConsole (m : Type → Type) where
  putOut : String → m Unit
  putError : String → m Unit

namespace Files

variable {m : Type → Type} [Monad m] [MonadFiles m]

/-- Reads a file as text. -/
def readText (path : Path) : m (Except FileError String) := do
  match ← MonadFiles.readBytes path with
  | .error e => return .error e
  | .ok bytes =>
    match String.fromUTF8? bytes with
    | some text => return .ok text
    | none => return .error .invalidText

/-- Replaces the content of a file by a text. -/
def writeText (path : Path) (text : String) : m (Except FileError Unit) :=
  MonadFiles.writeBytes path text.toUTF8

/-- Adds a text to the end of a file. -/
def appendText (path : Path) (text : String) : m (Except FileError Unit) :=
  MonadFiles.appendBytes path text.toUTF8

/-- Writes a text to a new file. -/
def createText (path : Path) (text : String) : m (Except FileError Unit) :=
  MonadFiles.createBytes path text.toUTF8

def isFile (path : Path) : m Bool := do return (← MonadFiles.kind? path) == some .file

def isDirectory (path : Path) : m Bool := do return (← MonadFiles.kind? path) == some .directory

def isPresent (path : Path) : m Bool := do return (← MonadFiles.kind? path).isSome

/-- Makes one directory, or finds that it is there. -/
def ensureDirectory (path : Path) : m (Except FileError Unit) := do
  match ← MonadFiles.makeDirectory path with
  | .ok () => return .ok ()
  | .error e => if ← isDirectory path then return .ok () else return .error e

/-- Makes a directory and those above it that are not there yet. The empty path needs none. -/
def ensureDirectories (path : Path) : m (Except FileError Unit) := do
  if path.text.isEmpty then return .ok ()
  else
    match ← MonadFiles.makeDirectory path with
    | .ok () => return .ok ()
    | .error .notFound =>
      -- a parent is missing, or a directory that the path leads through and out of again
      match _h : path.parent? with
      | none => return .error .notFound
      | some parent =>
        match ← ensureDirectories parent with
        | .error e => return .error e
        | .ok () => ensureDirectory path
    -- a directory that is there already gives an error too, which does not count
    | .error e => if ← isDirectory path then return .ok () else return .error e
termination_by path.text.toList.length
decreasing_by exact Path.length_parent?_lt _h

end Files

end VerilogScaffold
