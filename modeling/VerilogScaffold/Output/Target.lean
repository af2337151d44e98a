import VerilogScaffold.Path

/-!
# Output targets

A target says where generated files go, before it is known which source they are generated from: a
directory, relative to that of the source, and a pattern for the file's name, in which a placeholder
stands for the source's base name.
-/

namespace VerilogScaffold

/-- A directory and a file name pattern. -/
structure OutputTarget where
  directory : String
  fileName : String
  deriving DecidableEq

namespace OutputTarget

/-- Puts a base name in for every placeholder of a pattern. What goes in is not looked at again. -/
def fillBaseName (base : List Char) : List Char → List Char
  | '$' :: '\x7b' :: 'b' :: 'a' :: 's' :: 'e' :: 'N' :: 'a' :: 'm' :: 'e' :: '\x7d' :: rest =>
    base ++ fillBaseName base rest
  | c :: rest => c :: fillBaseName base rest
  | [] => []

/-- The file that text generated from a source goes to. -/
def resolve (t : OutputTarget) (source : Path) : Path :=
  let base := (source.fileStem?.getD "").toList
  let directory := (source.parent?.getD ⟨"."⟩).join ⟨t.directory⟩
  directory.join ⟨String.ofList (fillBaseName base t.fileName.toList)⟩

end OutputTarget

end VerilogScaffold
