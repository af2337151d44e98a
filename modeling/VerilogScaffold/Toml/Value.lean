/-!
# TOML values

A configuration is made of texts, so texts are the only scalars whose value is kept: numbers,
booleans and dates are read to the end, and then only known to be something else.

A table remembers how it came to be, as that decides what may still be added to it.
-/

namespace VerilogScaffold.Toml

/-- How a table came to be. -/
inductive Origin
  /-- Written in braces; it is complete. -/
  | braces
  /-- Opened by a header of its own, or the document itself. -/
  | header
  /-- Opened by the header of a table inside it; a header of its own may follow. -/
  | implied
  /-- Opened by a dotted key; only dotted keys add to it. -/
  | dotted
  deriving DecidableEq

/-- A TOML value. -/
inductive Value
  | text (s : String)
  /-- A number, a boolean, a date or a time. -/
  | other
  | array (items : List Value)
  | table (origin : Origin) (entries : List (String × Value))
  /-- An array of tables that headers in double brackets open one by one. -/
  | tables (elements : List (List (String × Value)))

/-- The entries of a table, in the order in which they were written. -/
abbrev Entries := List (String × Value)

/-- A table that is being filled. -/
structure Table where
  origin : Origin
  entries : Entries

/-- Replaces the value of a key, or adds the key at the end. -/
def put (key : String) (value : Value) : Entries → Entries
  | [] => [(key, value)]
  | (k, v) :: rest => if k = key then (key, value) :: rest else (k, v) :: put key value rest

/-- Takes a key out. -/
def erase (key : String) (entries : Entries) : Entries := entries.filter (·.1 != key)

/-! ## Adding to a table -/

/-- Replaces the last element of a list by what a function gives for it. -/
def updateLast? {α : Type} (f : α → Option α) : List α → Option (List α)
  | [] => none
  | [a] => (f a).map ([·])
  | a :: rest => (updateLast? f rest).map (a :: ·)

/-- Applies a function to the table that a path of keys leads to, opening the tables on the way that
are not there yet. A path of tables in double brackets goes through the last one. Dotted keys do not
enter a table that has a header, and nothing enters a table in braces. -/
def update? (dotted : Bool) (path : List String) (f : Table → Option Entries) (t : Table) :
    Option Entries :=
  match path with
  | [] => f t
  | key :: rest =>
    match t.entries.lookup key with
    | none =>
      let origin := if dotted then Origin.dotted else .implied
      (update? dotted rest f ⟨origin, []⟩).map fun es => put key (.table origin es) t.entries
    | some (.table origin es) =>
      if origin = .braces ∨ dotted ∧ origin = .header then none
      else
        (update? dotted rest f ⟨origin, es⟩).map fun es => put key (.table origin es) t.entries
    | some (.tables elements) =>
      (updateLast? (fun es => update? dotted rest f ⟨.header, es⟩) elements).map fun elements =>
        put key (.tables elements) t.entries
    | some _ => none

/-- Adds a value under a key, which may be dotted. The key must be new, and a dotted key must lead
to a table that dotted keys opened. -/
def insert? (path : List String) (key : String) (value : Value) (t : Table) : Option Entries :=
  update? true path (fun t =>
    if (t.origin = .dotted) = (path = []) then none
    else if (t.entries.lookup key).isSome then none
    else some (t.entries ++ [(key, value)])) t

end VerilogScaffold.Toml
