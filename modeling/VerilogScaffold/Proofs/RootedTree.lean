import VerilogScaffold.Proofs.SoundTree

/-!
# Trees that hang together

What stands below a place makes it a directory. Nothing about a list of entries says so, but it is
so in the tree that has only its root, and whatever is done to files keeps it so
(`FileTree.Reachable.isRooted`): a walk ends below a directory, and only a file is ever replaced or
taken away.

In such a tree a path names one place, wherever it leads (`FileTree.placeOf`), and the operations
that write to a file write there.
-/

namespace VerilogScaffold

namespace FileTree

variable {t t' : FileTree} {cwd here names steps : List String} {path : Path}
  {bytes : ByteArray} {place : Place}

/-! ## The place that a path names -/

/-- Where names lead from a directory, whatever stands there. -/
def follow (here : List String) : List String → List String
  | [] => here
  | name :: rest =>
    if name = "." then follow here rest
    else if name = ".." then follow here.dropLast rest
    else follow (here ++ [name]) rest

/-- The place that a path names to those who work in a directory. -/
def placeOf (cwd : List String) (path : Path) : List String :=
  follow (if path.isAbsolute then [] else cwd) (splitNames path.text.toList)

/-- The bytes of the file at a place, if there is one. -/
def content? (t : FileTree) (names : List String) : Option ByteArray :=
  match t.find? names with
  | some (.file content) => some content
  | _ => none

theorem follow_of_walk (h : t.walk here steps = .ok names) : follow here steps = names := by
  fun_induction walk t here steps with
  | case1 here => exact Except.ok.inj h
  | case2 | case3 | case6 => cases h
  | case4 here rest hdir ih =>
    rw [follow, if_pos rfl]
    exact ih h
  | case5 here rest hdir hdot ih =>
    rw [follow, if_neg hdot, if_pos rfl]
    exact ih h
  | case7 here name rest hdir hdot hup hshort ih =>
    rw [follow, if_neg hdot, if_neg hup]
    exact ih h

/-- A path that leads somewhere leads to the place it names. -/
theorem placeOf_of_locate (h : t.locate cwd path = .ok place) : placeOf cwd path = place.names := by
  obtain ⟨here, steps, hroute, hwalk, -⟩ := exists_walk_of_locate h
  obtain ⟨-, -, -, hhere, hsteps⟩ := route_eq_ok_iff.1 hroute
  rw [placeOf, ← hhere, ← hsteps]
  exact follow_of_walk hwalk

theorem asDirectory_of_locate (h : t.locate cwd path = .ok place) :
    place.asDirectory = endsInSeparator path := by
  obtain ⟨here, steps, -, -, hends⟩ := exists_walk_of_locate h
  exact hends

/-- The root is a directory. -/
theorem ne_nil_of_find? (h : t.find? names ≠ some .directory) : names ≠ [] := by
  rintro rfl
  exact h rfl

theorem content?_put_file (h : t.find? names ≠ some .directory) (other : List String) :
    (t.put names (.file bytes)).content? other = if other = names then some bytes
    else t.content? other := by
  rw [content?, find?_put t (ne_nil_of_find? h)]
  by_cases hsame : other = names
  · rw [if_pos hsame, if_pos hsame]
  · rw [if_neg hsame, if_neg hsame]
    rfl

end FileTree

theorem SameFiles.content?_eq {t t' : FileTree} (h : SameFiles t t') (names : List String) :
    t'.content? names = t.content? names := by
  have hcontent : ∀ (t : FileTree) content, t.content? names = some content ↔
      t.find? names = some (.file content) := by
    intro t content
    rw [FileTree.content?]
    split
    · next hfile => simp [hfile]
    · next hother => exact ⟨fun h => (nomatch h), fun hfile => absurd hfile (hother content)⟩
  apply Option.ext
  intro content
  rw [hcontent, hcontent]
  exact h names content

namespace FileTree

variable {t t' : FileTree} {cwd here names steps : List String} {path : Path}
  {bytes : ByteArray} {place : Place}

/-! ## Rooted trees -/

/-- Whether the place that a place is directly below of is a directory. -/
def HasParent (t : FileTree) (names : List String) : Prop :=
  ∀ front name, names = front ++ [name] → t.find? front = some .directory

/-- Whether whatever stands in a tree has a directory that it stands in. -/
def IsRooted (t : FileTree) : Prop := ∀ names, t.find? names ≠ none → t.HasParent names

theorem hasParent_nil (t : FileTree) : t.HasParent [] := by
  intro front name h
  simp at h

namespace IsRooted

theorem empty : IsRooted .empty := by
  intro names hnames
  by_cases hnil : names = []
  · exact hnil ▸ hasParent_nil _
  · rw [find?, if_neg hnil] at hnames
    exact absurd rfl hnames

/-- Nothing stands below a place that is no directory, so anything may be put there. -/
theorem put (h : t.IsRooted) (hparent : t.HasParent names)
    (hnot : t.find? names ≠ some .directory) (node : Node) :
    (t.put names node).IsRooted := by
  intro other hother front name hfront
  rw [find?_put t (ne_nil_of_find? hnot)] at hother ⊢
  have hdir : t.find? front = some .directory := by
    split at hother
    · next hsame => exact hparent front name (hsame ▸ hfront)
    · exact h other hother front name hfront
  have hother : front ≠ names := by
    rintro rfl
    exact hnot hdir
  rw [if_neg hother]
  exact hdir

theorem remove (h : t.IsRooted) (hnot : t.find? names ≠ some .directory) :
    (t.remove names).IsRooted := by
  intro other hother front name hfront
  rw [find?_remove t (ne_nil_of_find? hnot)] at hother ⊢
  have hdir : t.find? front = some .directory := by
    split at hother
    · exact absurd rfl hother
    · exact h other hother front name hfront
  have hother : front ≠ names := by
    rintro rfl
    exact hnot hdir
  rw [if_neg hother]
  exact hdir

/-- What is above a directory is a directory. -/
theorem find?_dropLast (h : t.IsRooted) (hdir : t.find? names = some .directory) :
    t.find? names.dropLast = some .directory := by
  rcases List.eq_nil_or_concat names with rfl | ⟨front, name, rfl⟩
  · rfl
  · rw [List.concat_eq_append] at hdir ⊢
    rw [List.dropLast_concat]
    exact h _ (by rw [hdir]; exact Option.some_ne_none _) front name rfl

/-! ### Walks in them -/

theorem hasParent_walk (h : t.IsRooted) (hhere : t.HasParent here)
    (hwalk : t.walk here steps = .ok names) :
    t.HasParent names := by
  fun_induction walk t here steps with
  | case1 here => exact Except.ok.inj hwalk ▸ hhere
  | case2 | case3 | case6 => cases hwalk
  | case4 here rest hdir ih => exact ih hhere hwalk
  | case5 here rest hdir hdot ih =>
    refine ih (h _ ?_) hwalk
    rw [h.find?_dropLast hdir]
    exact Option.some_ne_none _
  | case7 here name rest hdir hdot hup hshort ih =>
    refine ih (fun front last heq => ?_) hwalk
    rw [← (List.append_inj' heq rfl).1]
    exact hdir

end IsRooted

/-- A path without names is one to the root. -/
theorem isAbsolute_of_splitNames_eq_nil (hne : path.text.toList ≠ [])
    (h : splitNames path.text.toList = []) :
    path.isAbsolute = true := by
  rw [Path.isAbsolute]
  rcases hcs : path.text.toList with _ | ⟨c, cs⟩
  · exact absurd hcs hne
  · rw [hcs, splitNames, List.map_eq_nil_iff, List.filter_eq_nil_iff] at h
    by_cases hc : c = '/'
    · rw [hc]
      rfl
    · -- the first name starts with the first character
      exfalso
      rcases hrest : cs.splitOn '/' with _ | ⟨first, rest⟩
      · exact List.splitOn_ne_nil '/' cs hrest
      · have hsplit : (c :: cs).splitOn '/' = (c :: first) :: rest := by
          rw [List.splitOn_cons_eq_if_modifyHead, if_neg (by simpa using hc), hrest]
          rfl
        exact h (c :: first) (hsplit ▸ List.mem_cons_self ..) rfl

theorem find?_of_node {node : Node} (h : t.node cwd path = .ok (names, node)) :
    names = placeOf cwd path ∧ t.find? names = some node := by
  obtain ⟨place, hlocate, rfl, hfind⟩ := exists_locate_of_node h
  exact ⟨(placeOf_of_locate hlocate).symm, hfind⟩

namespace IsRooted

/-- What a path leads to stands in a directory, if it stands. -/
theorem hasParent_locate (h : t.IsRooted) (hplace : t.locate cwd path = .ok place) :
    t.HasParent place.names := by
  obtain ⟨here, steps, hroute, hwalk, -⟩ := exists_walk_of_locate hplace
  obtain ⟨-, hne, -, hhere, hsteps⟩ := route_eq_ok_iff.1 hroute
  refine h.hasParent_walk ?_ hwalk
  rcases steps with _ | ⟨name, rest⟩
  · rw [hhere, if_pos (isAbsolute_of_splitNames_eq_nil hne hsteps.symm)]
    exact hasParent_nil t
  · apply h here
    intro hnone
    rw [walk, hnone] at hwalk
    cases hwalk

/-- A walk whose last name is `.` or `..` comes to a directory. -/
theorem find?_of_walk_dots (h : t.IsRooted) {init : List String} {last : String}
    (hdots : last = "." ∨ last = "..")
    (hwalk : t.walk here (init ++ [last]) = .ok names) : t.find? names = some .directory := by
  rw [walk_append] at hwalk
  obtain ⟨front, -, hend⟩ := exists_of_bind_eq_ok hwalk
  rw [walk] at hend
  -- names are looked at in directories only
  rcases hfront : t.find? front with _ | content | _ <;> simp only [hfront] at hend
  · cases hend
  · cases hend
  · rcases hdots with rfl | rfl
    · rw [if_pos rfl, walk] at hend
      rw [← Except.ok.inj hend]
      exact hfront
    · rw [if_neg (by decide), if_pos rfl, walk] at hend
      rw [← Except.ok.inj hend]
      exact h.find?_dropLast hfront

/-- A path with a separator at its end leads to a directory, if a file may be written there at
all. -/
theorem find?_of_endsInSeparator (h : t.IsRooted) (hplace : t.locateFile cwd path = .ok place)
    (hends : endsInSeparator path = true) : t.find? place.names = some .directory := by
  obtain ⟨⟨here, steps⟩, hroute, hway⟩ := exists_of_bind_eq_ok hplace
  obtain ⟨-, hne, -, hhere, hsteps⟩ := route_eq_ok_iff.1 hroute
  dsimp only at hway
  split at hway
  · obtain ⟨names, -, herror⟩ := exists_of_bind_eq_ok hway
    cases herror
  · next hlast =>
    rw [locate_of_route hroute] at hway
    obtain ⟨names, hwalk, hnames⟩ := exists_of_bind_eq_ok hway
    obtain rfl := Except.ok.inj hnames
    show t.find? names = _
    rcases List.eq_nil_or_concat steps with rfl | ⟨init, last, rfl⟩
    · rw [walk, hhere, if_pos (isAbsolute_of_splitNames_eq_nil hne hsteps.symm)] at hwalk
      rw [← Except.ok.inj hwalk]
      rfl
    · have hdots : last = "." ∨ last = ".." := by
        simpa [hends, or_iff_not_imp_left] using hlast
      rw [List.concat_eq_append] at hwalk
      exact h.find?_of_walk_dots hdots hwalk

/-- One operation on files. -/
theorem step (h : t.IsRooted) (hstep : Step cwd t t') : t'.IsRooted := by
  obtain ⟨path, place, hlocate, hnot, rfl | ⟨node, rfl⟩⟩ := hstep.exists_locate
  · exact h.remove hnot
  · exact h.put (h.hasParent_locate hlocate) hnot node

theorem makesDirectories (h : t.IsRooted) (hmakes : MakesDirectories cwd t t') : t'.IsRooted := by
  induction hmakes with
  | refl => exact h
  | make made _ ih => exact ih (h.step (.makeDirectory _ made))

end IsRooted

/-- Whatever was done to files, the tree hangs together. -/
theorem Reachable.isRooted (h : Reachable t) : t.IsRooted := by
  induction h with
  | empty => exact .empty
  | step _ _ hstep ih => exact ih.step hstep

/-! ## Operations on the file of a path -/

/-- A text goes to the place that the path names, which is no directory. -/
theorem eq_put_of_writeBytes (h : t.writeBytes cwd path bytes = .ok t') :
    t.find? (placeOf cwd path) ≠ some .directory ∧ t' = t.put (placeOf cwd path) (.file bytes) := by
  obtain ⟨place, hplace, hput⟩ := exists_of_bind_eq_ok h
  have hlocate := locate_of_locateFile hplace
  rw [node?_of_locate hlocate] at hput
  rw [placeOf_of_locate hlocate]
  split at hput
  · cases hput
  · next hnot => exact ⟨hnot, (Except.ok.inj hput).symm⟩

/-- Where a path leads to nothing, there is no file to write over. -/
theorem IsRooted.content?_of_writeBytes {e : FileError} (h : t.IsRooted)
    (hwrite : t.writeBytes cwd path bytes = .ok t')
    (hnode : t.node cwd path = .error e) : t.content? (placeOf cwd path) = none := by
  obtain ⟨place, hplace, -⟩ := exists_of_bind_eq_ok hwrite
  have hlocate := locate_of_locateFile hplace
  rw [node_eq_of_locate hlocate, node?_of_locate hlocate, asDirectory_of_locate hlocate] at hnode
  rw [placeOf_of_locate hlocate, content?]
  rcases hfind : t.find? place.names with _ | content | _
  · rfl
  · rw [hfind] at hnode
    dsimp only at hnode
    split at hnode
    · -- a separator at the end would have led to a directory
      next hends =>
      rw [h.find?_of_endsInSeparator hplace hends] at hfind
      cases hfind
    · cases hnode
  · rfl

/-- A text is added to the file at the place that the path names. -/
theorem exists_of_appendBytes (h : t.appendBytes cwd path bytes = .ok t') :
    ∃ content, t.content? (placeOf cwd path) = some content ∧
      t.find? (placeOf cwd path) ≠ some .directory ∧
      t' = t.put (placeOf cwd path) (.file (content ++ bytes)) := by
  obtain ⟨⟨names, content | _⟩, hnode, hput⟩ := exists_of_bind_eq_ok h
  · obtain ⟨rfl, hfile⟩ := find?_of_node hnode
    refine ⟨content, ?_, ?_, (Except.ok.inj hput).symm⟩
    · rw [content?, hfile]
    · simp [hfile]
  · cases hput

end FileTree

end VerilogScaffold
