/-!
# Paths

A path is the text that names a file, with `/` between its components. Nothing here looks at a file
system, and nothing is normalised beyond what the operations need: repeated and trailing separators,
and components `.` other than a leading one, do not count as components, but stay in the text of a
path until an operation cuts them off.

## Shape of a path

A path is its root and its body. The root is `/` for an absolute path, `.` for a path that starts
with a component `.`, and empty otherwise. Operations on the last component work on the reversed
body.
-/

namespace VerilogScaffold

/-- The text that names a file. -/
structure Path where
  text : String
  deriving DecidableEq, Inhabited

namespace Path

def isAbsolute (p : Path) : Bool := p.text.toList.head? == some '/'

/-- The root of a path's characters, and its body. -/
def splitRoot : List Char → List Char × List Char
  | '/' :: body => (['/'], body)
  | ['.'] => (['.'], [])
  | '.' :: '/' :: body => (['.'], '/' :: body)
  | body => ([], body)

/-- Drops the separators and the components `.` that a reversed body starts with. -/
def trimReversed (body : List Char) : List Char :=
  match body with
  | [] => []
  | '/' :: rest => trimReversed rest
  | ['.'] => []
  | '.' :: '/' :: rest => trimReversed rest
  | c :: rest => c :: rest

theorem length_trimReversed_le (body : List Char) : (trimReversed body).length ≤ body.length := by
  fun_induction trimReversed body <;> grind

/-- The last component of a reversed body, and the reversed body before it with its end trimmed. -/
def popReversed? (body : List Char) : Option (List Char × List Char) :=
  match trimReversed body with
  | [] => none
  | c :: rest =>
    some (((c :: rest).takeWhile (· != '/')).reverse,
      trimReversed ((c :: rest).dropWhile (· != '/')))

/-- The last component of a path that is a name or `..`, if it has one. -/
def lastComponent? (p : Path) : Option String :=
  (popReversed? (splitRoot p.text.toList).2.reverse).map fun c => String.ofList c.1

/-- The path without its last component. A root has no parent, nor has the empty path; a leading `.`
is a component. -/
def parent? (p : Path) : Option Path :=
  match popReversed? (splitRoot p.text.toList).2.reverse with
  | some (_, before) => some ⟨String.ofList ((splitRoot p.text.toList).1 ++ before.reverse)⟩
  | none => if (splitRoot p.text.toList).1 = ['.'] then some ⟨""⟩ else none

/-- The name of the file a path leads to: its last component, unless that leads up. -/
def fileName? (p : Path) : Option String := p.lastComponent?.filter (· != "..")

/-- The part of a file name before its last dot; a name whose only dot comes first is all stem. -/
def stemOfName (name : String) : String :=
  let reversed := name.toList.reverse
  match reversed.dropWhile (· != '.') with
  | [] | ['.'] => name
  | _ :: before => String.ofList before.reverse

/-- The file name without its extension. -/
def fileStem? (p : Path) : Option String := p.fileName?.map stemOfName

/-- The path that a second path leads to from a first. -/
def join (p q : Path) : Path :=
  if q.isAbsolute then q
  else
    match p.text.toList.getLast? with
    | none | some '/' => ⟨p.text ++ q.text⟩
    | some _ => ⟨p.text ++ "/" ++ q.text⟩

/-! ## Ancestors -/

private theorem trimReversed_ne_slash (body rest : List Char) :
    trimReversed body ≠ '/' :: rest := by
  fun_induction trimReversed body <;> simp_all

theorem length_popReversed?_lt {body comp before : List Char}
    (h : popReversed? body = some (comp, before)) : before.length < body.length := by
  unfold popReversed? at h
  have hle := length_trimReversed_le body
  split at h
  · simp at h
  · rename_i c rest heq
    obtain ⟨-, rfl⟩ := Prod.mk.inj (Option.some.inj h)
    have htrim := length_trimReversed_le ((c :: rest).dropWhile (· != '/'))
    rw [heq] at hle
    have hc : c ≠ '/' := fun hc => trimReversed_ne_slash body rest (hc ▸ heq)
    have hdrop : (c :: rest).dropWhile (· != '/') = rest.dropWhile (· != '/') := by simp [hc]
    have := (List.dropWhile_sublist (· != '/') (l := rest)).length_le
    rw [hdrop] at htrim ⊢
    simp only [List.length_cons] at hle
    omega

/-- A root and a body make up the path. -/
theorem splitRoot_append (cs : List Char) : (splitRoot cs).1 ++ (splitRoot cs).2 = cs := by
  unfold splitRoot
  split <;> rfl

/-- A parent's text is shorter. -/
theorem length_parent?_lt {p q : Path} (h : p.parent? = some q) :
    q.text.toList.length < p.text.toList.length := by
  unfold parent? at h
  have happ := congrArg List.length (splitRoot_append p.text.toList)
  simp only [List.length_append] at happ
  split at h
  · rename_i comp before hpop
    have := length_popReversed?_lt hpop
    obtain rfl := Option.some.inj h
    simp only [String.toList_ofList, List.length_append, List.length_reverse] at this ⊢
    omega
  · split at h
    · rename_i hroot
      obtain rfl := Option.some.inj h
      rw [hroot] at happ
      simp only [List.length_cons, List.length_nil] at happ
      simp only [String.toList_empty, List.length_nil]
      omega
    · simp at h

/-- The path itself, its parent, the parent of that, and so on. -/
def ancestors (p : Path) : List Path :=
  match _h : p.parent? with
  | some q => p :: ancestors q
  | none => [p]
termination_by p.text.toList.length
decreasing_by exact length_parent?_lt _h

end Path

end VerilogScaffold
