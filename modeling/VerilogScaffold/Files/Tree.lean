import VerilogScaffold.Files.Basic

/-!
# Trees of files

A tree of files in memory. Every file and directory below the root is an entry under the list of
names that leads to it from the root; the root itself is always a directory. A file's bytes are part
of its entry.

## Shape of an operation

`FileTree.locate` walks a path from the working directory, name by name, through directories only,
and answers with the place it leads to and what is there; the last name need not be there.
`FileTree.locateFile` does so where a file is to be written. The operations then act on that one
place, so each changes at most one entry: `find?_put` and `find?_remove` say how.
-/

namespace VerilogScaffold

/-- What stands at a place of a tree. -/
inductive Node
  | file (content : ByteArray)
  | directory

def Node.kind : Node → FileKind
  | .file _ => .file
  | .directory => .directory

/-- A tree of files. -/
structure FileTree where
  entries : List (List String × Node)

namespace FileTree

/-- The tree that has only its root. -/
def empty : FileTree := ⟨[]⟩

/-- What stands at a place. -/
def find? (t : FileTree) (names : List String) : Option Node :=
  if names = [] then some .directory else t.entries.lookup names

/-- Takes out what stands at a place. -/
def remove (t : FileTree) (names : List String) : FileTree := ⟨t.entries.filter (·.1 != names)⟩

/-- Replaces what stands at a place. -/
def put (t : FileTree) (names : List String) (node : Node) : FileTree :=
  ⟨(names, node) :: (t.remove names).entries⟩

/-- The names directly below a place. -/
def children (t : FileTree) (names : List String) : List String :=
  t.entries.filterMap fun e =>
    if e.1.dropLast = names then e.1.getLast? else none

/-! ## Finding after changing -/

private theorem lookup_filter_ne (entries : List (List String × Node)) (names other : List String) :
    (entries.filter (·.1 != names)).lookup other =
      if other = names then none else entries.lookup other := by
  induction entries with
  | nil => simp
  | cons e rest ih =>
    obtain ⟨key, node⟩ := e
    by_cases hkey : key = names
    · subst hkey
      by_cases hother : other = key
      · subst hother
        simpa using ih
      · have : (other == key) = false := by simpa using hother
        simp [ih, hother, List.lookup_cons, this]
    · have hne : (key != names) = true := by simpa using hkey
      by_cases hother : other = key
      · subst hother
        simp [hne, hkey]
      · have : (other == key) = false := by simpa using hother
        simp [hne, List.lookup_cons, this, ih]

theorem find?_remove (t : FileTree) {names : List String} (h : names ≠ []) (other : List String) :
    (t.remove names).find? other = if other = names then none else t.find? other := by
  unfold find? remove
  by_cases hroot : other = []
  · subst hroot
    simp [Ne.symm h]
  · simp only [hroot, if_false, lookup_filter_ne]

theorem find?_put (t : FileTree) {names : List String} (h : names ≠ []) (node : Node)
    (other : List String) :
    (t.put names node).find? other = if other = names then some node else t.find? other := by
  unfold find? put remove
  by_cases hroot : other = []
  · subst hroot
    simp [Ne.symm h]
  · by_cases hother : other = names
    · subst hother
      simp [hroot]
    · have : (other == names) = false := by simpa using hother
      simp only [hroot, if_false, List.lookup_cons, this, lookup_filter_ne, hother]

/-! ## Walking paths -/

/-- The greatest length of a name, in bytes. -/
def nameLimit : Nat := 255

/-- The length that a path must stay below, in bytes. -/
def pathLimit : Nat := 4096

/-- Where a path leads. -/
structure Place where
  names : List String
  node? : Option Node
  /-- Whether a separator follows the last name, so that only a directory will do. -/
  asDirectory : Bool

/-- Follows names from a directory. `..` leads up, and stays at the root. -/
def walk (t : FileTree) (here : List String) : List String → Except FileError (List String)
  | [] => .ok here
  | name :: rest =>
    -- even `.` and `..` are names that only a directory has
    match t.find? here with
    | none => .error .notFound
    | some (.file _) => .error .notADirectory
    | some .directory =>
      if name = "." then walk t here rest
      else if name = ".." then walk t here.dropLast rest
      else if nameLimit < name.utf8ByteSize then .error .nameTooLong
      else walk t (here ++ [name]) rest

/-- The names that separators divide a text into, without the empty ones. -/
def splitNames (cs : List Char) : List String :=
  ((cs.splitOn '/').filter (!·.isEmpty)).map String.ofList

/-- Whether a path ends in a separator. -/
def endsInSeparator (path : Path) : Bool := path.text.toList.getLast? == some '/'

/-- The directory that a path is walked from, and the names to follow. -/
def route (cwd : List String) (path : Path) : Except FileError (List String × List String) :=
  let cs := path.text.toList
  if '\x00' ∈ cs then .error .nulInPath
  else if cs = [] then .error .notFound
  else if pathLimit ≤ path.text.utf8ByteSize then .error .nameTooLong
  else .ok (if path.isAbsolute then [] else cwd, splitNames cs)

/-- Finds where a path leads from a working directory. -/
def locate (t : FileTree) (cwd : List String) (path : Path) : Except FileError Place := do
  let (here, steps) ← route cwd path
  let names ← t.walk here steps
  return ⟨names, t.find? names, endsInSeparator path⟩

/-- Finds where a path leads that a file is to be written at. A separator after a name asks for a
directory, so there the name itself is not looked at, only the directory it would be in. -/
def locateFile (t : FileTree) (cwd : List String) (path : Path) : Except FileError Place := do
  let (here, steps) ← route cwd path
  if endsInSeparator path ∧ steps.getLast?.any (· ∉ [".", ".."]) then do
    let _ ← t.walk here (steps.dropLast ++ ["."])
    .error .isADirectory
  else t.locate cwd path

/-! ## Operations -/

/-- What a path leads to. -/
def node (t : FileTree) (cwd : List String) (path : Path) :
    Except FileError (List String × Node) := do
  let place ← t.locate cwd path
  match place.node? with
  | none => .error .notFound
  | some (.file content) =>
    if place.asDirectory then .error .notADirectory else return (place.names, .file content)
  | some .directory => return (place.names, .directory)

/-- The bytes of a file. -/
def readBytes (t : FileTree) (cwd : List String) (path : Path) : Except FileError ByteArray := do
  match ← t.node cwd path with
  | (_, .file content) => return content
  | (_, .directory) => .error .isADirectory

/-- Replaces the content of a file, or writes a new one. -/
def writeBytes (t : FileTree) (cwd : List String) (path : Path) (bytes : ByteArray) :
    Except FileError FileTree := do
  let place ← t.locateFile cwd path
  match place.node? with
  | some .directory => .error .isADirectory
  | _ => return t.put place.names (.file bytes)

/-- Adds to the end of a file. -/
def appendBytes (t : FileTree) (cwd : List String) (path : Path) (bytes : ByteArray) :
    Except FileError FileTree := do
  match ← t.node cwd path with
  | (names, .file content) => return t.put names (.file (content ++ bytes))
  | (_, .directory) => .error .isADirectory

/-- Writes a new file. -/
def createBytes (t : FileTree) (cwd : List String) (path : Path) (bytes : ByteArray) :
    Except FileError FileTree := do
  let place ← t.locateFile cwd path
  if place.node?.isSome then .error .alreadyExists
  else return t.put place.names (.file bytes)

/-- Removes a file. -/
def removeFile (t : FileTree) (cwd : List String) (path : Path) : Except FileError FileTree := do
  match ← t.node cwd path with
  | (names, .file _) => return t.remove names
  | (_, .directory) => .error .isADirectory

/-- Makes a directory. -/
def makeDirectory (t : FileTree) (cwd : List String) (path : Path) : Except FileError FileTree := do
  let place ← t.locate cwd path
  if place.node?.isSome then .error .alreadyExists
  else return t.put place.names .directory

/-- The names in a directory. -/
def namesIn (t : FileTree) (cwd : List String) (path : Path) : Except FileError (List String) := do
  match ← t.node cwd path with
  | (names, .directory) => return t.children names
  | (_, .file _) => .error .notADirectory

end FileTree

/-! ## Running on a tree -/

/-- A machine in memory: its files, the working directory, and what was written to the console. -/
structure Machine where
  files : FileTree
  cwd : List String
  out : String
  err : String

namespace Machine

/-- Asks the files. -/
def ask {α : Type} (f : FileTree → List String → α) : StateM Machine α := do
  let s ← get
  return f s.files s.cwd

/-- Changes the files, unless that fails. -/
def change (f : FileTree → List String → Except FileError FileTree) :
    StateM Machine (Except FileError Unit) := do
  let s ← get
  match f s.files s.cwd with
  | .error e => return .error e
  | .ok files => do
    set { s with files := files }
    return .ok ()

instance : MonadFiles (StateM Machine) where
  workingDirectory := do return ⟨"/" ++ "/".intercalate (← get).cwd⟩
  kind? path := ask fun t cwd => (t.node cwd path).toOption.map (·.2.kind)
  readBytes path := ask fun t cwd => t.readBytes cwd path
  writeBytes path bytes := change fun t cwd => t.writeBytes cwd path bytes
  appendBytes path bytes := change fun t cwd => t.appendBytes cwd path bytes
  createBytes path bytes := change fun t cwd => t.createBytes cwd path bytes
  removeFile path := change fun t cwd => t.removeFile cwd path
  makeDirectory path := change fun t cwd => t.makeDirectory cwd path
  namesIn path := ask fun t cwd => t.namesIn cwd path

instance : MonadConsole (StateM Machine) where
  putOut text := modify fun s => { s with out := s.out ++ text }
  putError text := modify fun s => { s with err := s.err ++ text }

end Machine

end VerilogScaffold
