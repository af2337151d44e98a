import VerilogScaffold.Proofs.Walk

/-!
# Files of a directory

A file is named by its directory and a name in it. Where the path of the directory leads to a
directory, the path that is joined from both leads to that name below it (`FileTree.leadsTo_join`),
and where the directory is missing the file is missing too. What stands on the way to a directory
are directories only, so nothing that is done to files turns the way elsewhere
(`FileTree.node_directory_congr`).
-/

namespace VerilogScaffold

namespace FileTree

variable {t t' : FileTree} {cwd here home steps names : List String}
  {path dir : Path} {file : String}

/-! ## The names in a directory -/

theorem mem_children : file ∈ t.children names ↔ ∃ node, (names ++ [file], node) ∈ t.entries := by
  rw [children, List.mem_filterMap]
  constructor
  · rintro ⟨⟨key, node⟩, hmem, hfile⟩
    split at hfile
    · rename_i hinit
      obtain ⟨front, rfl⟩ := List.getLast?_eq_some_iff.1 hfile
      obtain rfl : front = names := by simpa using hinit
      exact ⟨node, hmem⟩
    · cases hfile
  · rintro ⟨node, hmem⟩
    exact ⟨_, hmem, by simp⟩

/-- Nothing stands at a name that a directory does not have. -/
theorem find?_of_not_mem_children (h : file ∉ t.children names) :
    t.find? (names ++ [file]) = none := by
  rw [find?, if_neg (by simp), List.lookup_eq_none_iff]
  rintro ⟨key, node⟩ hmem
  rw [bne_iff_ne]
  exact fun hkey => h (mem_children.2 ⟨node, hkey ▸ hmem⟩)

theorem children_remove (t : FileTree) (names : List String) (file : String) :
    (t.remove (names ++ [file])).children names = (t.children names).filter (· != file) := by
  rw [children, children, remove, List.filterMap_filter, List.filter_filterMap]
  congr 1
  funext e
  obtain ⟨key, node⟩ := e
  rcases hlast : key.getLast? with _ | last
  · simp
  · obtain ⟨front, rfl⟩ := List.getLast?_eq_some_iff.1 hlast
    by_cases hfront : front = names <;> by_cases hfile : last = file <;>
      simp [hfront, hfile, Option.filter]

theorem children_put (t : FileTree) (names : List String) (file : String) (node : Node) :
    (t.put (names ++ [file]) node).children names = file :: (t.children names).filter
    (· != file) := by
  rw [← children_remove]
  simp [children, put]

/-! ## Paths of files -/

/-- Whether a text can be the name of a file. -/
structure IsFileName (file : String) : Prop where
  no_separator : '/' ∉ file.toList
  no_nul : '\x00' ∉ file.toList
  not_empty : file ≠ ""
  not_dot : file ≠ "."
  not_up : file ≠ ".."

theorem splitNames_append_cons (cs : List Char) (h : IsFileName file) :
    splitNames (cs ++ '/' :: file.toList) = splitNames cs ++ [file] := by
  have hne : file.toList ≠ [] := fun hnil => h.not_empty (String.toList_eq_nil_iff.1 hnil)
  rw [splitNames, splitNames, List.splitOn_append_cons_self,
    List.splitOn_eq_singleton h.no_separator]
  simp [hne]

theorem splitNames_concat (cs : List Char) : splitNames (cs ++ ['/']) = splitNames cs := by
  rw [splitNames, splitNames, List.splitOn_append_cons_self]
  simp

theorem IsFileName.isAbsolute (h : IsFileName file) : (⟨file⟩ : Path).isAbsolute = false := by
  rw [Path.isAbsolute, beq_eq_false_iff_ne]
  exact fun hhead => h.no_separator (List.mem_of_head? hhead)

/-- What stands before a name in the path of a file comes from the directory alone. -/
theorem exists_text_join (dir : Path) :
    ∃ front, ∀ file, IsFileName file → (dir.join ⟨file⟩).text = front ++ file := by
  rcases hlast : dir.text.toList.getLast? with _ | c
  · exact ⟨dir.text, fun file h => by rw [Path.join, h.isAbsolute, hlast]; rfl⟩
  · by_cases hc : c = '/'
    · subst c
      exact ⟨dir.text, fun file h => by rw [Path.join, h.isAbsolute, hlast]; rfl⟩
    · exact ⟨dir.text ++ "/", fun file h => by rw [Path.join, h.isAbsolute, hlast]; simp⟩

/-- A separator stands before the name, unless the directory's path ends in one. -/
theorem exists_toList_join (hdir : dir.text.toList ≠ []) (h : IsFileName file) :
    ∃ cs, (dir.join ⟨file⟩).text.toList = cs ++ '/' :: file.toList ∧
      (dir.text.toList = cs ∨ dir.text.toList = cs ++ ['/']) := by
  rcases hlast : dir.text.toList.getLast? with _ | c
  · exact absurd (List.getLast?_eq_none_iff.1 hlast) hdir
  · by_cases hc : c = '/'
    · subst c
      obtain ⟨cs, hcs⟩ := List.getLast?_eq_some_iff.1 hlast
      refine ⟨cs, ?_, .inr hcs⟩
      rw [Path.join, h.isAbsolute, hlast]
      simp [hcs]
    · refine ⟨dir.text.toList, ?_, .inl rfl⟩
      rw [Path.join, h.isAbsolute, hlast]
      simp

theorem route_eq_ok_iff : route cwd path = .ok (here, steps) ↔
    '\x00' ∉ path.text.toList ∧ path.text.toList ≠ [] ∧ path.text.utf8ByteSize < pathLimit ∧
      here = (if path.isAbsolute then [] else cwd) ∧ steps = splitNames path.text.toList := by
  rw [route]
  split
  · simp [*]
  · split
    · simp [*]
    · split
      · rename_i hlong
        simp [Nat.not_lt.2 hlong]
      · rename_i hnul hne hlong
        rw [Except.ok.injEq, Prod.mk.injEq]
        refine ⟨fun ⟨hhere, hsteps⟩ => ⟨hnul, hne, Nat.not_le.1 hlong, hhere.symm, hsteps.symm⟩, ?_⟩
        exact fun ⟨_, _, _, hhere, hsteps⟩ => ⟨hhere.symm, hsteps.symm⟩

/-- The way to a file is the way to its directory, and the file's name. -/
theorem route_join (hdir : route cwd dir = .ok (here, steps)) (h : IsFileName file)
    (hshort : (dir.join ⟨file⟩).text.utf8ByteSize < pathLimit) :
    route cwd (dir.join ⟨file⟩) = .ok (here, steps ++ [file]) ∧
      endsInSeparator (dir.join ⟨file⟩) = false := by
  obtain ⟨hnul, hne, -, hhere, hsteps⟩ := route_eq_ok_iff.1 hdir
  obtain ⟨cs, hjoin, hcs⟩ := exists_toList_join hne h
  have hsame : splitNames dir.text.toList = splitNames cs ∧
      (dir.join ⟨file⟩).isAbsolute = dir.isAbsolute ∧
      '\x00' ∉ cs := by
    rw [Path.isAbsolute, Path.isAbsolute, hjoin]
    rcases hcs with hcs | hcs <;> rw [hcs] at hnul hne ⊢
    · refine ⟨rfl, ?_, hnul⟩
      rw [List.head?_append, List.head?_eq_some_head hne]
      rfl
    · refine ⟨splitNames_concat cs, ?_, fun hmem => hnul (List.mem_append_left _ hmem)⟩
      cases cs <;> rfl
  obtain ⟨hsplit, habsolute, hnul'⟩ := hsame
  constructor
  · refine route_eq_ok_iff.2 ⟨?_, ?_, hshort, habsolute ▸ hhere, ?_⟩
    · rw [hjoin]
      simp [hnul', h.no_nul]
    · rw [hjoin]
      simp
    · rw [hjoin, splitNames_append_cons cs h, hsteps, hsplit]
  · have hne' : file.toList ≠ [] := fun hnil => h.not_empty (String.toList_eq_nil_iff.1 hnil)
    rw [endsInSeparator, hjoin, beq_eq_false_iff_ne, List.getLast?_append,
      List.getLast?_cons_of_ne_nil hne', List.getLast?_eq_some_getLast hne', Option.some_or]
    exact fun hlast => h.no_separator (Option.some.inj hlast ▸ List.getLast_mem hne')

theorem walk_append (t : FileTree) (here xs ys : List String) :
    t.walk here (xs ++ ys) = (t.walk here xs).bind fun names => t.walk names ys := by
  induction xs generalizing here with
  | nil => rfl
  | cons name rest ih =>
    rw [List.cons_append, walk, walk]
    rcases t.find? here with _ | _ | _
    · rfl
    · rfl
    · dsimp only
      rw [ih here, ih here.dropLast, ih (here ++ [name])]
      split
      · rfl
      · split
        · rfl
        · split <;> rfl

/-! ## The way to a directory -/

theorem node_eq_of_locate {place : Place} (h : t.locate cwd path = .ok place) :
    t.node cwd path =
      match place.node? with
      | none => .error .notFound
      | some (.file content) =>
        if place.asDirectory then .error .notADirectory else .ok (place.names, .file content)
      | some .directory => .ok (place.names, .directory) := by
  rw [node, h]
  rfl

theorem node_of_locate_error {e : FileError} (h : t.locate cwd path = .error e) :
    t.node cwd path = .error e := by
  rw [node, h]
  rfl

theorem locate_of_walk (hroute : route cwd path = .ok (here, steps))
    (hwalk : t.walk here steps = .ok names) :
    t.locate cwd path = .ok ⟨names, t.find? names, endsInSeparator path⟩ := by
  rw [locate_of_route hroute, hwalk]
  rfl

theorem locate_of_walk_error {e : FileError} (hroute : route cwd path = .ok (here, steps))
    (hwalk : t.walk here steps = .error e) : t.locate cwd path = .error e := by
  rw [locate_of_route hroute, hwalk]
  rfl

theorem exists_walk_of_node (h : t.node cwd dir = .ok (home, .directory)) :
    ∃ here steps, route cwd dir = .ok (here, steps) ∧ t.walk here steps = .ok home ∧
      t.find? home = some .directory := by
  rcases hroute : route cwd dir with e | ⟨here, steps⟩
  · rw [node_of_locate_error (locate_of_route_error hroute)] at h
    cases h
  · rcases hwalk : t.walk here steps with e | names
    · rw [node_of_locate_error (locate_of_walk_error hroute hwalk)] at h
      cases h
    · rw [node_eq_of_locate (locate_of_walk hroute hwalk)] at h
      refine ⟨here, steps, rfl, ?_⟩
      rcases hfind : t.find? names with _ | content | _ <;> simp only [hfind] at h
      · cases h
      · split at h <;> cases h
      · obtain rfl : names = home := congrArg Prod.fst (Except.ok.inj h)
        exact ⟨hwalk, hfind⟩

/-- On the way to a directory there are only directories. -/
theorem find?_of_mem_trail (hwalk : t.walk here steps = .ok home)
    (hhome : t.find? home = some .directory) :
    ∀ names ∈ t.trail here steps, t.find? names = some .directory := by
  induction steps generalizing here with
  | nil =>
    obtain rfl := Except.ok.inj hwalk
    simpa [trail] using hhome
  | cons name rest ih =>
    rw [walk] at hwalk
    rcases hhere : t.find? here with _ | content | _ <;> simp only [hhere] at hwalk
    · cases hwalk
    · cases hwalk
    · rw [trail, hhere]
      refine List.forall_mem_cons.2 ⟨hhere, ?_⟩
      dsimp only
      split
      · rw [if_pos ‹_›] at hwalk
        exact ih hwalk
      · rw [if_neg ‹_›] at hwalk
        split
        · rw [if_pos ‹_›] at hwalk
          exact ih hwalk
        · rw [if_neg ‹_›] at hwalk
          split
          · exact List.forall_mem_nil _
          · rw [if_neg ‹_›] at hwalk
            exact ih hwalk

/-- The way to a directory is the same wherever the directories are. -/
theorem node_directory_congr (hdir : t.node cwd dir = .ok (home, .directory))
    (hkeep : ∀ names, t.find? names = some .directory → t'.find? names = some .directory) :
    t'.node cwd dir = .ok (home, .directory) := by
  obtain ⟨here, steps, hroute, hwalk, hhome⟩ := exists_walk_of_node hdir
  rw [← hdir]
  refine node_congr fun names hnames => ?_
  rw [trailOf, hroute] at hnames
  have hnode := find?_of_mem_trail hwalk hhome names hnames
  rw [hnode, hkeep names hnode]

/-! ## The way to a file -/

/-- Whether a path leads to a place, to find what is there or to write a file. -/
structure LeadsTo (t : FileTree) (cwd : List String) (path : Path)
    (names : List String) : Prop where
  locate : t.locate cwd path = .ok ⟨names, t.find? names, false⟩
  locateFile : t.locateFile cwd path = .ok ⟨names, t.find? names, false⟩

/-- Whether a path leads nowhere, as a directory on the way is not there. -/
structure LeadsNowhere (t : FileTree) (cwd : List String) (path : Path) : Prop where
  locate : t.locate cwd path = .error .notFound
  locateFile : t.locateFile cwd path = .error .notFound

theorem locateFile_eq (h : endsInSeparator path = false) :
    t.locateFile cwd path = t.locate cwd path := by
  rw [locateFile]
  rcases hroute : route cwd path with e | ⟨here, steps⟩
  · rw [locate_of_route_error hroute]
    rfl
  · show (if _ then _ else _) = _
    rw [if_neg (by simp [h])]

/-- Whether a name is short enough for a file of a directory. -/
structure Fits (dir : Path) (file : String) : Prop where
  name : file.utf8ByteSize ≤ nameLimit
  path : (dir.join ⟨file⟩).text.utf8ByteSize < pathLimit

/-- A file stands below its directory. -/
theorem leadsTo_join (hdir : t.node cwd dir = .ok (home, .directory)) (h : IsFileName file)
    (hfits : Fits dir file) :
    t.LeadsTo cwd (dir.join ⟨file⟩) (home ++ [file]) := by
  obtain ⟨here, steps, hroute, hwalk, hhome⟩ := exists_walk_of_node hdir
  obtain ⟨hjoin, hends⟩ := route_join hroute h hfits.path
  have hfile : t.walk here (steps ++ [file]) = .ok (home ++ [file]) := by
    rw [walk_append, hwalk]
    simp [Except.bind, walk, hhome, h.not_dot, h.not_up, Nat.not_lt.2 hfits.name]
  have hlocate : t.locate cwd (dir.join ⟨file⟩) =
      .ok ⟨home ++ [file], t.find? (home ++ [file]), false⟩ := by
    rw [locate_of_walk hjoin hfile, hends]
  exact ⟨hlocate, (locateFile_eq hends).trans hlocate⟩

/-- A directory that is missing has no files. -/
theorem leadsNowhere_join {way : List String × List String} (hroute : route cwd dir = .ok way)
    (hdir : t.node cwd dir = .error .notFound) (h : IsFileName file) (hfits : Fits dir file) :
    t.LeadsNowhere cwd (dir.join ⟨file⟩) := by
  obtain ⟨here, steps⟩ := way
  obtain ⟨hjoin, hends⟩ := route_join hroute h hfits.path
  have hlocate : t.locate cwd (dir.join ⟨file⟩) = .error .notFound := by
    refine locate_of_walk_error hjoin ?_
    rw [walk_append]
    rcases hwalk : t.walk here steps with e | names
    · rw [node_of_locate_error (locate_of_walk_error hroute hwalk)] at hdir
      obtain rfl := Except.error.inj hdir
      rfl
    · rw [node_eq_of_locate (locate_of_walk hroute hwalk)] at hdir
      rcases hfind : t.find? names with _ | content | _ <;> simp only [hfind] at hdir
      · simp [Except.bind, walk, hfind]
      · split at hdir <;> cases hdir
      · cases hdir
  exact ⟨hlocate, (locateFile_eq hends).trans hlocate⟩

/-! ## Operations on a file -/

section Operations

variable {bytes : ByteArray} {text : String}

namespace LeadsTo

theorem readText_none (h : t.LeadsTo cwd path names) (hnone : t.find? names = none) :
    t.readText cwd path = .error .notFound := by
  rw [readText, readBytes, node_eq_of_locate h.locate, hnone]
  rfl

theorem readText_file (h : t.LeadsTo cwd path names)
    (hfile : t.find? names = some (.file text.toUTF8)) :
    t.readText cwd path = .ok text := by
  refine readText_of_readBytes ?_
  rw [readBytes, node_eq_of_locate h.locate, hfile]
  rfl

theorem writeBytes (h : t.LeadsTo cwd path names) (hnot : t.find? names ≠ some .directory)
    (bytes : ByteArray) :
    t.writeBytes cwd path bytes = .ok (t.put names (.file bytes)) := by
  rw [FileTree.writeBytes, h.locateFile]
  rcases hfind : t.find? names with _ | content | _
  · rfl
  · rfl
  · exact absurd hfind hnot

theorem createBytes_none (h : t.LeadsTo cwd path names) (hnone : t.find? names = none)
    (bytes : ByteArray) :
    t.createBytes cwd path bytes = .ok (t.put names (.file bytes)) := by
  rw [createBytes, h.locateFile, hnone]
  rfl

theorem createBytes_some {node : Node} (h : t.LeadsTo cwd path names)
    (hsome : t.find? names = some node)
    (bytes : ByteArray) : t.createBytes cwd path bytes = .error .alreadyExists := by
  rw [createBytes, h.locateFile, hsome]
  rfl

theorem removeFile_none (h : t.LeadsTo cwd path names) (hnone : t.find? names = none) :
    t.removeFile cwd path = .error .notFound := by
  rw [removeFile, node_eq_of_locate h.locate, hnone]
  rfl

theorem removeFile_file (h : t.LeadsTo cwd path names)
    (hfile : t.find? names = some (.file bytes)) :
    t.removeFile cwd path = .ok (t.remove names) := by
  rw [removeFile, node_eq_of_locate h.locate, hfile]
  rfl

end LeadsTo

namespace LeadsNowhere

theorem readText (h : t.LeadsNowhere cwd path) : t.readText cwd path = .error .notFound := by
  rw [FileTree.readText, readBytes, node_of_locate_error h.locate]
  rfl

theorem writeBytes (h : t.LeadsNowhere cwd path) (bytes : ByteArray) :
    t.writeBytes cwd path bytes = .error .notFound := by
  rw [FileTree.writeBytes, h.locateFile]
  rfl

theorem removeFile (h : t.LeadsNowhere cwd path) : t.removeFile cwd path = .error .notFound := by
  rw [FileTree.removeFile, node_of_locate_error h.locate]
  rfl

end LeadsNowhere

end Operations

/-! ## Making a directory -/

open Machine

/-- Whether a path leads to a directory. -/
def isDirectory (t : FileTree) (cwd : List String) (path : Path) : Bool :=
  (t.node cwd path).toOption.map (·.2.kind) == some .directory

theorem perform_isDirectory (t : FileTree) (cwd : List String) (path : Path) :
    perform (Files.isDirectory path) cwd t = (t.isDirectory cwd path, t) := rfl

/-- A directory cannot be made where one is. -/
theorem makeDirectory_of_node (h : t.node cwd dir = .ok (home, .directory)) :
    t.makeDirectory cwd dir = .error .alreadyExists := by
  obtain ⟨here, steps, hroute, hwalk, hhome⟩ := exists_walk_of_node h
  rw [makeDirectory, locate_of_walk hroute hwalk, hhome]
  rfl

theorem node_of_makeDirectory_ok (h : t.makeDirectory cwd dir = .ok t') :
    t.node cwd dir = .error .notFound := by
  rw [makeDirectory] at h
  rcases hplace : t.locate cwd dir with e | place
  · rw [hplace] at h
    cases h
  · rw [hplace] at h
    rw [node_eq_of_locate hplace]
    change (if place.node?.isSome then Except.error FileError.alreadyExists
      else Except.ok _) = _ at h
    rcases hnode : place.node? with _ | node
    · rfl
    · rw [hnode] at h
      cases h

theorem node_of_makeDirectory_notFound (h : t.makeDirectory cwd dir = .error .notFound) :
    t.node cwd dir = .error .notFound := by
  rw [makeDirectory] at h
  rcases hplace : t.locate cwd dir with e | place
  · rw [hplace] at h
    obtain rfl : e = .notFound := Except.error.inj h
    exact node_of_locate_error hplace
  · rw [hplace] at h
    change (if place.node?.isSome then Except.error FileError.alreadyExists
      else Except.ok _) = _ at h
    split at h <;> cases h

theorem perform_makeDirectory_bind {α : Type} (t : FileTree) (cwd : List String) (dir : Path)
    (f : Except FileError Unit → StateM Machine α) :
    perform (MonadFiles.makeDirectory dir >>= f) cwd t =
      match t.makeDirectory cwd dir with
      | .error e => perform (f (.error e)) cwd t
      | .ok t' => perform (f (.ok ())) cwd t' := by
  have hmake : perform (MonadFiles.makeDirectory dir : StateM Machine _) cwd t =
      match t.makeDirectory cwd dir with
      | .error e => (.error e, t)
      | .ok t' => (.ok (), t') := OnFiles.perform_change _ cwd t
  rw [(KeepsFiles.makeDirectory dir).onFiles.perform_bind, hmake]
  rcases t.makeDirectory cwd dir with e | t' <;> rfl

/-- Where there is a directory, there is nothing to make. -/
theorem ensureDirectories_of_node (h : t.node cwd dir = .ok (home, .directory)) :
    perform (Files.ensureDirectories dir) cwd t = (.ok (), t) := by
  obtain ⟨here, steps, hroute, -, -⟩ := exists_walk_of_node h
  have hne : ¬dir.text.isEmpty = true := by
    obtain ⟨-, hne, -⟩ := route_eq_ok_iff.1 hroute
    simpa using hne
  rw [Files.ensureDirectories, if_neg hne, perform_makeDirectory_bind, makeDirectory_of_node h]
  dsimp only
  rw [(KeepsFiles.isDirectory dir).onFiles.perform_bind, perform_isDirectory, isDirectory, h]
  rfl

/-- Directories are made only where nothing is or a directory is. -/
theorem node_of_ensureDirectories (hne : dir.text ≠ "")
    (h : (perform (Files.ensureDirectories dir) cwd t).1 = .ok ()) :
    (∃ home, t.node cwd dir = .ok (home, .directory)) ∨ t.node cwd dir = .error .notFound := by
  have hne' : ¬dir.text.isEmpty = true := by simpa using hne
  rw [Files.ensureDirectories, if_neg hne', perform_makeDirectory_bind] at h
  rcases hmake : t.makeDirectory cwd dir with e | t'
  · by_cases hmissing : e = .notFound
    · subst e
      exact .inr (node_of_makeDirectory_notFound hmake)
    · left
      rw [hmake] at h
      have hfound : (perform (Files.isDirectory dir >>= fun found =>
          if found = true then pure (Except.ok ())
            else pure (Except.error e)) cwd t).1 = .ok () := by
        cases e <;> first | exact h | exact absurd rfl hmissing
      rw [(KeepsFiles.isDirectory dir).onFiles.perform_bind, perform_isDirectory,
        isDirectory] at hfound
      rcases hnode : t.node cwd dir with e' | ⟨home, content | _⟩ <;> rw [hnode] at hfound
      · cases hfound
      · cases hfound
      · exact ⟨home, rfl⟩
  · exact .inr (node_of_makeDirectory_ok hmake)

end FileTree

end VerilogScaffold
