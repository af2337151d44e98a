import Mathlib
import VerilogScaffold.Template.Placeholder

/-!
# Generated blocks are tables

Each generated block is set out as a table. A row stands for each parameter or port, in order, and
nothing of it is lost: behind a lead each column holds the item of the row in full, filled up with
blanks to the width of the widest item, and then a text that is the same in every row
(`Column.row`).

What follows from that holds for any columns (`isTable_rows`): all rows have one length, and a
column starts at one offset in all of them. `Placeholder.expand_tabulated` says which tables the
blocks are.
-/

namespace VerilogScaffold

namespace Text

/-- A column of a table: the item that each row has in it, the number of blanks that stand behind a
widest item, and the text behind the column. -/
structure Column (α : Type) where
  item : α → String
  gap : Nat
  tail : String

variable {α : Type} {lead : String} {columns : List (Column α)} {c : Column α} {xs : List α} {x : α}

namespace Column

/-- The width of a column in a table of some things. -/
def width (c : Column α) (xs : List α) : Nat := widest (xs.map c.item) + c.gap

/-- An item in full, the blanks that fill it up to a width, and the text behind the column. -/
def cell (c : Column α) (width : Nat) (x : α) : String :=
  c.item x ++ String.ofList (List.replicate (width - (c.item x).length) ' ') ++ c.tail

/-- The row of a thing in a table of some things: its cells, behind a lead. -/
def row (lead : String) (columns : List (Column α)) (xs : List α) (x : α) : String :=
  lead ++ String.join (columns.map fun c => c.cell (c.width xs) x)

/-- Whether a width is that of a widest item, with the gap behind it. -/
structure IsWidth (c : Column α) (xs : List α) (width : Nat) : Prop where
  le : ∀ x ∈ xs, (c.item x).length + c.gap ≤ width
  exists_eq : xs ≠ [] → ∃ x ∈ xs, (c.item x).length + c.gap = width

end Column

/-- Whether rows are a table of some things. -/
structure IsTable (lead : String) (columns : List (Column α)) (xs : List α)
    (rows : List String) : Prop where
  /-- There is one row for each thing, in order, and it holds the lead and the cells of its thing
  alone. -/
  rows_eq : rows = xs.map (Column.row lead columns xs)
  /-- All rows have one length. -/
  uniform : ∀ row ∈ rows, ∀ row' ∈ rows, row.length = row'.length
  /-- A column has one width, and starts at one offset, in all rows. -/
  aligned : ∀ c ∈ columns, ∃ offset width, c.IsWidth xs width ∧
    List.Forall₂ (fun x row => ∃ before after, before.length = offset ∧
      row = before ++ c.cell width x ++ after) xs rows

/-! ## Columns line up -/

theorem exists_length_eq_widest {texts : List String} (h : texts ≠ []) :
    ∃ text ∈ texts, text.length = widest texts := by
  induction texts with
  | nil => exact absurd rfl h
  | cons text rest ih =>
    have hwidest : widest (text :: rest) = max text.length (widest rest) := rfl
    by_cases hrest : widest rest ≤ text.length
    · exact ⟨text, List.mem_cons_self .., by omega⟩
    · have hne : rest ≠ [] := by
        rintro rfl
        exact hrest (Nat.zero_le _)
      obtain ⟨other, hother, hlength⟩ := ih hne
      exact ⟨other, List.mem_cons_of_mem _ hother, by omega⟩

theorem Column.isWidth_width (c : Column α) (xs : List α) : c.IsWidth xs (c.width xs) where
  le x hx := Nat.add_le_add_right (length_le_widest (List.mem_map_of_mem hx)) _
  exists_eq hne := by
    have hitems : xs.map c.item ≠ [] := by simpa using hne
    obtain ⟨text, htext, hlength⟩ := exists_length_eq_widest hitems
    obtain ⟨x, hx, rfl⟩ := List.mem_map.1 htext
    exact ⟨x, hx, congrArg (· + c.gap) hlength⟩

@[simp] theorem row_nil (lead : String) (xs : List α) (x : α) : Column.row lead [] xs x = lead :=
  String.append_empty

/-- A row grows by a cell for each column. -/
theorem row_cons (lead : String) (c : Column α) (columns : List (Column α)) (xs : List α) (x : α) :
    Column.row lead (c :: columns) xs x =
      Column.row (lead ++ padRight (c.width xs) (c.item x) ++ c.tail) columns xs x := by
  simp only [Column.row, Column.cell, padRight, List.map_cons, String.join_cons,
    String.append_assoc]

/-- How far a row reaches does not depend on what it is the row of. -/
theorem length_row (lead : String) (columns : List (Column α)) (hx : x ∈ xs) :
    (Column.row lead columns xs x).length =
      lead.length + (columns.map fun c => c.width xs + c.tail.length).sum := by
  induction columns generalizing lead with
  | nil => simp
  | cons c columns ih =>
    have hle := (c.isWidth_width xs).le x hx
    rw [row_cons, ih, String.length_append, String.length_append, length_padRight,
      List.map_cons, List.sum_cons]
    omega

/-- A row is a shorter row, a cell, and what stands behind it. -/
theorem row_append_cons (lead : String) (left : List (Column α)) (c : Column α)
    (right : List (Column α)) (xs : List α) (x : α) :
    Column.row lead (left ++ c :: right) xs x =
      Column.row lead left xs x ++ c.cell (c.width xs) x ++
        String.join (right.map fun c => c.cell (c.width xs) x) := by
  simp only [Column.row, List.map_append, List.map_cons, String.join_append, String.join_cons,
    String.append_assoc]

/-- **Rows of one shape line up.** -/
theorem isTable_rows (lead : String) (columns : List (Column α)) (xs : List α) :
    IsTable lead columns xs (xs.map (Column.row lead columns xs)) where
  rows_eq := rfl
  uniform row hrow row' hrow' := by
    obtain ⟨x, hx, rfl⟩ := List.mem_map.1 hrow
    obtain ⟨y, hy, rfl⟩ := List.mem_map.1 hrow'
    rw [length_row lead columns hx, length_row lead columns hy]
  aligned c hc := by
    obtain ⟨left, right, rfl⟩ := List.append_of_mem hc
    refine ⟨lead.length + (left.map fun c => c.width xs + c.tail.length).sum, c.width xs,
      c.isWidth_width xs, ?_⟩
    rw [List.forall₂_map_right_iff, List.forall₂_same]
    exact fun x hx => ⟨_, _, length_row lead left hx, row_append_cons lead left c right xs x⟩

end Text

/-! ## Items of names -/

open Text

namespace Block

/-- Whether a name is an escaped identifier without its end: it starts with a backslash, and its
last character is no blank. -/
def IsUnterminated (name : String) : Prop :=
  name.toList.head? = some '\\' ∧ name.toList.getLast?.any isBlank = false

instance (name : String) : Decidable (IsUnterminated name) := inferInstanceAs (Decidable (_ ∧ _))

/-- What a column of names holds of a name: the whole name, and the space that ends it if it is an
escaped identifier without its end. -/
def nameItem (name : String) : String := name ++ if IsUnterminated name then " " else ""

/-- A name is written as its item says. -/
theorem terminatedName_eq_nameItem (name : String) : terminatedName name = nameItem name := by
  unfold terminatedName
  split
  · rename_i cs last hcs hlast
    cases hblank : isBlank last with
    | true =>
      have hended : ¬ IsUnterminated name := by simp [IsUnterminated, hlast, hblank]
      rw [if_pos rfl, nameItem, if_neg hended, String.append_empty]
    | false =>
      have hopen : IsUnterminated name := ⟨by simp [hcs], by simp [hlast, hblank]⟩
      rw [if_neg Bool.false_ne_true, nameItem, if_pos hopen]
  · rename_i hplain
    have hended : ¬ IsUnterminated name := by
      rintro ⟨hhead, -⟩
      obtain ⟨cs, hcs⟩ := List.head?_eq_some_iff.1 hhead
      have hne : name.toList ≠ [] := by simp [hcs]
      exact hplain cs _ hcs (List.getLast?_eq_some_getLast hne)
    rw [nameItem, if_neg hended, String.append_empty]

theorem writtenName_parameter : Parameter.writtenName = fun p => nameItem p.name :=
  funext fun p => terminatedName_eq_nameItem p.name

theorem writtenName_port : Port.writtenName = fun p => nameItem p.name :=
  funext fun p => terminatedName_eq_nameItem p.name

/-! ## The blocks -/

/-- The columns of a parameter declaration. -/
def parameterColumns : List (Column Parameter) :=
  [⟨fun p => nameItem p.name, 0, " = "⟩, ⟨Parameter.value, 0, ";"⟩]

/-- The columns of the declaration of a port's signal, behind its keyword. -/
def portColumns (d : Direction) : List (Column Port) :=
  [⟨Port.range, 1, ""⟩, ⟨fun p => nameItem p.name, 0, signalInitializer d ++ ";"⟩]

/-- The columns of a connection: the name that is connected, and the signal of that name. -/
def connectionColumns {α : Type} (name : α → String) : List (Column α) :=
  [⟨fun x => nameItem (name x), 0, "("⟩, ⟨fun x => nameItem (name x), 0, ")"⟩]

theorem isTable_parameterDeclarations (ps : List Parameter) :
    IsTable "parameter " parameterColumns ps (parameterDeclarations ps) := by
  have hrow : ∀ p, Column.row "parameter " parameterColumns ps p =
      "parameter " ++ padRight (widest (ps.map fun p => nameItem p.name)) (nameItem p.name) ++
        " = " ++ padRight (widest (ps.map Parameter.value)) p.value ++ ";" := fun p => by
    rw [parameterColumns, row_cons, row_cons, row_nil]
    rfl
  rw [parameterDeclarations, writtenName_parameter, ← funext hrow]
  exact isTable_rows ..

theorem isTable_portDeclarations (d : Direction) (ps : List Port) :
    IsTable (padRight 5 (signalKeyword d)) (portColumns d) ps (portDeclarations d ps) := by
  have hrow : ∀ p, Column.row (padRight 5 (signalKeyword d)) (portColumns d) ps p =
      padRight 5 (signalKeyword d) ++ padRight (widest (ps.map Port.range) + 1) p.range ++
        padRight (widest (ps.map fun p => nameItem p.name)) (nameItem p.name) ++
        signalInitializer d ++ ";" := fun p => by
    rw [portColumns, row_cons, row_cons, row_nil, String.append_empty, ← String.append_assoc]
    rfl
  rw [portDeclarations, writtenName_port, ← funext hrow]
  exact isTable_rows ..

theorem row_connectionColumns {α : Type} (name : α → String) (xs : List α) (x : α) :
    Column.row "    ." (connectionColumns name) xs x =
      connection (widest (xs.map fun x => nameItem (name x))) (nameItem (name x)) := by
  rw [connectionColumns, row_cons, row_cons, row_nil]
  rfl

theorem isTable_parameterConnections (ps : List Parameter) :
    IsTable "    ." (connectionColumns Parameter.name) ps (parameterConnections ps) := by
  have hrows : parameterConnections ps =
      ps.map (Column.row "    ." (connectionColumns Parameter.name) ps) := by
    rw [parameterConnections, writtenName_parameter, List.map_map]
    exact List.map_congr_left fun p _ => (row_connectionColumns Parameter.name ps p).symm
  rw [hrows]
  exact isTable_rows ..

/-- The connections of all directions are one table. -/
theorem isTable_portConnections (s : Signature) :
    IsTable "    ." (connectionColumns Port.name) s.allPorts (portConnections s).flatten := by
  have hrows : (portConnections s).flatten =
      s.allPorts.map (Column.row "    ." (connectionColumns Port.name) s.allPorts) := by
    rw [portConnections, writtenName_port, ← List.flatMap_def]
    simp only [← row_connectionColumns]
    rw [← List.map_flatMap, Signature.allPorts]
  rw [hrows]
  exact isTable_rows ..

end Block

/-- The placeholder that the signal declarations for the ports of a direction stand for. -/
def Direction.placeholder : Direction → Placeholder
  | .input => .inputDeclaration
  | .output => .outputDeclaration
  | .inout => .inoutDeclaration

/-- **Generated blocks are aligned, and hold all that they are generated from.** Each block joins
the rows of a table, one for each parameter or port in order. A row holds the whole name, with a
space behind it if it is an escaped identifier without its end, and the whole value or range. The
connections of all directions are one table, in a group for each direction that has ports. -/
theorem Placeholder.expand_tabulated (s : Signature) :
    (∃ rows, expand s .parameterDeclaration = joinWith "\n" rows ∧
      IsTable "parameter " Block.parameterColumns s.parameters rows) ∧
    (∃ rows, expand s .parameterDefinition =
        (if s.parameters.isEmpty then "" else "#(\n" ++ joinWith ",\n" rows ++ "\n)") ∧
      IsTable "    ." (Block.connectionColumns Parameter.name) s.parameters rows) ∧
    (∀ d, ∃ rows, expand s d.placeholder = joinWith "\n" rows ∧
      IsTable (padRight 5 (Block.signalKeyword d)) (Block.portColumns d) (s.ports d) rows) ∧
    ∃ groups : List (List String), expand s .portConnection =
        joinWith ",\n\n" ((groups.filter (!·.isEmpty)).map (joinWith ",\n")) ∧
      groups.map List.length = Direction.all.map (fun d => (s.ports d).length) ∧
      IsTable "    ." (Block.connectionColumns Port.name) s.allPorts groups.flatten := by
  refine ⟨⟨_, rfl, Block.isTable_parameterDeclarations s.parameters⟩,
    ⟨_, rfl, Block.isTable_parameterConnections s.parameters⟩, fun d =>
      ⟨_, ?_, Block.isTable_portDeclarations d _⟩,
    ⟨_, rfl, ?_, Block.isTable_portConnections s⟩⟩
  · cases d <;> rfl
  · simp only [Block.portConnections, List.map_map, Function.comp_def, List.length_map]

/-- The first name is an escaped identifier without its end. -/
example : Placeholder.expand ⟨"m", [], [⟨"\\a+b", ""⟩, ⟨"c", "[1:0]"⟩], [], []⟩ .inputDeclaration =
    "reg        \\a+b  = 0;\nreg  [1:0] c     = 0;" := by decide

end VerilogScaffold
