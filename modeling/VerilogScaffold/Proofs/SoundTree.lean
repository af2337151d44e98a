import Mathlib
import VerilogScaffold.Proofs.Directory

/-!
# Trees that files can be in

A tree is a list of entries, and nothing about the list says that no two entries stand at one place,
or that no name is longer than names may be. Both are so in the tree that has only its root, and
whatever is done to files keeps them so: an operation changes one place at most, and it has walked
there (`FileTree.Step.exists_locate`). Such trees are sound. Their directories have each name once
(`FileTree.IsSound.nodup_children`).
-/

namespace VerilogScaffold

namespace FileTree

variable {t t' : FileTree} {cwd here names steps : List String} {path : Path}
  {bytes : ByteArray} {node : Node}

/-- Whether no name of a place is too long. -/
def NamesFit (names : List String) : Prop := ∀ name ∈ names, name.utf8ByteSize ≤ nameLimit

/-- Whether entries stand at different places, and under names that files can have. -/
structure IsSound (t : FileTree) : Prop where
  nodup : (t.entries.map Prod.fst).Nodup
  namesFit : ∀ e ∈ t.entries, NamesFit e.1

instance (names : List String) :
    Decidable (NamesFit names) := inferInstanceAs (Decidable (∀ _ ∈ names, _))

namespace IsSound

theorem empty : IsSound .empty := ⟨List.nodup_nil, List.forall_mem_nil _⟩

theorem remove (h : t.IsSound) (names : List String) : (t.remove names).IsSound where
  nodup := h.nodup.sublist (List.filter_sublist.map _)
  namesFit e he := h.namesFit e ((List.mem_filter.1 he).1)

theorem put (h : t.IsSound) (hnames : NamesFit names) (node : Node) :
    (t.put names node).IsSound where
  nodup := by
    rw [FileTree.put, List.map_cons, List.nodup_cons]
    refine ⟨fun hmem => ?_, (h.remove names).nodup⟩
    obtain ⟨e, he, hkey⟩ := List.mem_map.1 hmem
    have hother : e.1 ≠ names := by simpa [FileTree.remove] using (List.mem_filter.1 he).2
    exact hother hkey
  namesFit := List.forall_mem_cons.2 ⟨hnames, (h.remove names).namesFit⟩

end IsSound

/-! ## What operations do -/

/-- What succeeds in two steps succeeds in each. -/
theorem exists_of_bind_eq_ok {ε α β : Type} {x : Except ε α} {f : α → Except ε β} {b : β}
    (h : (x >>= f) = .ok b) :
    ∃ a, x = .ok a ∧ f a = .ok b := by
  rcases x with e | a
  · cases h
  · exact ⟨a, rfl, h⟩

/-- A path leads to where it is walked to. -/
theorem exists_walk_of_locate {place : Place} (h : t.locate cwd path = .ok place) :
    ∃ here steps, route cwd path = .ok (here, steps) ∧ t.walk here steps = .ok place.names ∧
      place.asDirectory = endsInSeparator path := by
  obtain ⟨⟨here, steps⟩, hroute, hway⟩ := exists_of_bind_eq_ok h
  obtain ⟨names, hwalk, hplace⟩ := exists_of_bind_eq_ok hway
  obtain rfl := Except.ok.inj hplace
  exact ⟨here, steps, hroute, hwalk, rfl⟩

theorem NamesFit.walk (h : NamesFit here) (hwalk : t.walk here steps = .ok names) :
    NamesFit names := by
  fun_induction FileTree.walk t here steps with
  | case1 here =>
    obtain rfl := Except.ok.inj hwalk
    exact h
  | case2 | case3 | case6 => cases hwalk
  | case4 here rest hdir ih => exact ih h hwalk
  | case5 here rest hdir hdot ih =>
    exact ih (fun name hname => h name (List.mem_of_mem_dropLast hname)) hwalk
  | case7 here name rest hdir hdot hup hshort ih =>
    refine ih (fun name' hname' => ?_) hwalk
    rcases List.mem_append.1 hname' with hname' | hname'
    · exact h name' hname'
    · rw [List.mem_singleton.1 hname']
      exact Nat.not_lt.1 hshort

/-- Where a path leads, names are as short as on the way. -/
theorem NamesFit.locate {place : Place} (hcwd : NamesFit cwd) (h : t.locate cwd path = .ok place) :
    NamesFit place.names := by
  obtain ⟨here, steps, hroute, hwalk, -⟩ := exists_walk_of_locate h
  obtain ⟨-, -, -, hhere, -⟩ := route_eq_ok_iff.1 hroute
  refine NamesFit.walk ?_ hwalk
  rw [hhere]
  split
  · exact List.forall_mem_nil _
  · exact hcwd

theorem locate_of_locateFile {place : Place} (h : t.locateFile cwd path = .ok place) :
    t.locate cwd path = .ok place := by
  obtain ⟨way, -, hway⟩ := exists_of_bind_eq_ok h
  dsimp only at hway
  split at hway
  · obtain ⟨names, -, herror⟩ := exists_of_bind_eq_ok hway
    cases herror
  · exact hway

theorem exists_locate_of_node (h : t.node cwd path = .ok (names, node)) :
    ∃ place, t.locate cwd path = .ok place ∧ place.names = names ∧ t.find? names = some node := by
  obtain ⟨place, hplace, hnode⟩ := exists_of_bind_eq_ok h
  rw [node?_of_locate hplace] at hnode
  refine ⟨place, hplace, ?_⟩
  rcases hfind : t.find? place.names with _ | content | _ <;> rw [hfind] at hnode
  · cases hnode
  · dsimp only at hnode
    split at hnode
    · cases hnode
    · obtain ⟨rfl, rfl⟩ := Prod.mk.inj (Except.ok.inj hnode)
      exact ⟨rfl, hfind⟩
  · obtain ⟨rfl, rfl⟩ := Prod.mk.inj (Except.ok.inj hnode)
    exact ⟨rfl, hfind⟩

/-- One operation on files, done by anyone who works in a directory. -/
inductive Step (cwd : List String) (t t' : FileTree) : Prop
  | write (path : Path) (bytes : ByteArray) (done : t.writeBytes cwd path bytes = .ok t')
  | append (path : Path) (bytes : ByteArray) (done : t.appendBytes cwd path bytes = .ok t')
  | create (path : Path) (bytes : ByteArray) (done : t.createBytes cwd path bytes = .ok t')
  | remove (path : Path) (done : t.removeFile cwd path = .ok t')
  | makeDirectory (path : Path) (done : t.makeDirectory cwd path = .ok t')

/-- An operation changes what stands at one place, which it has walked to, and where no directory
stands. -/
theorem Step.exists_locate (h : Step cwd t t') :
    ∃ path place, t.locate cwd path = .ok place ∧ t.find? place.names ≠ some .directory ∧
      (t' = t.remove place.names ∨ ∃ node, t' = t.put place.names node) := by
  cases h with
  | write path bytes done =>
    obtain ⟨place, hplace, hput⟩ := exists_of_bind_eq_ok done
    have hlocate := locate_of_locateFile hplace
    rw [node?_of_locate hlocate] at hput
    split at hput
    · cases hput
    · next hnot => exact ⟨path, place, hlocate, hnot, .inr ⟨.file bytes, (Except.ok.inj hput).symm⟩⟩
  | append path bytes done =>
    obtain ⟨⟨names, content | _⟩, hnode, hput⟩ := exists_of_bind_eq_ok done
    · obtain ⟨place, hlocate, rfl, hfile⟩ := exists_locate_of_node hnode
      exact ⟨path, place,
        hlocate, by simp [hfile], .inr ⟨.file (content ++ bytes), (Except.ok.inj hput).symm⟩⟩
    · cases hput
  | create path bytes done =>
    obtain ⟨place, hplace, hput⟩ := exists_of_bind_eq_ok done
    have hlocate := locate_of_locateFile hplace
    rw [node?_of_locate hlocate] at hput
    split at hput
    · cases hput
    · next hnone =>
      exact ⟨path, place, hlocate, fun hdir => hnone (hdir ▸ rfl),
        .inr ⟨.file bytes, (Except.ok.inj hput).symm⟩⟩
  | remove path done =>
    obtain ⟨⟨names, content | _⟩, hnode, hremove⟩ := exists_of_bind_eq_ok done
    · obtain ⟨place, hlocate, rfl, hfile⟩ := exists_locate_of_node hnode
      exact ⟨path, place, hlocate, by simp [hfile], .inl (Except.ok.inj hremove).symm⟩
    · cases hremove
  | makeDirectory path done =>
    obtain ⟨place, hlocate, hput⟩ := exists_of_bind_eq_ok done
    rw [node?_of_locate hlocate] at hput
    split at hput
    · cases hput
    · next hnone =>
      exact ⟨path, place, hlocate, fun hdir => hnone (hdir ▸ rfl),
        .inr ⟨.directory, (Except.ok.inj hput).symm⟩⟩

/-- What may have been done to files, from a tree that has only its root. -/
inductive Reachable : FileTree → Prop
  | empty : Reachable .empty
  | step {cwd : List String} {t t' : FileTree} (before : Reachable t) (hcwd : NamesFit cwd)
      (step : Step cwd t t') :
      Reachable t'

theorem IsSound.step (h : t.IsSound) (hcwd : NamesFit cwd) (hstep : Step cwd t t') :
    t'.IsSound := by
  obtain ⟨path, place, hlocate, -, rfl | ⟨node, rfl⟩⟩ := hstep.exists_locate
  · exact h.remove place.names
  · exact h.put (hcwd.locate hlocate) node

/-- **Whatever was done to files, the tree is sound.** -/
theorem Reachable.isSound (h : Reachable t) : t.IsSound := by
  induction h with
  | empty => exact .empty
  | step _ hcwd hstep ih => exact ih.step hcwd hstep

/-! ## The names in a directory of a sound tree -/

/-- Something stands at every name of a directory. -/
theorem exists_find?_of_mem_children {file : String} (h : file ∈ t.children names) :
    ∃ node, t.find? (names ++ [file]) = some node := by
  obtain ⟨node, hmem⟩ := mem_children.1 h
  rw [find?, if_neg (by simp), ← Option.isSome_iff_exists, Option.isSome_iff_ne_none, ne_eq,
    List.lookup_eq_none_iff]
  exact fun hnone => by simpa using hnone _ hmem

namespace IsSound

theorem nodup_children (h : t.IsSound) (names : List String) : (t.children names).Nodup := by
  have hkeys : t.children names = (t.entries.map Prod.fst).filterMap fun key =>
      if key.dropLast = names then key.getLast? else none := by
    rw [children, List.filterMap_map]
    rfl
  rw [hkeys]
  -- two places below one directory with the same last name are one place
  refine List.Nodup.filterMap (fun key key' file hfile hfile' => ?_) h.nodup
  have hplace : ∀ key : List String, file ∈ (if key.dropLast = names then key.getLast? else none) →
      key = names ++ [file] := by
    intro key hkey
    split at hkey
    · rename_i hinit
      obtain ⟨front, rfl⟩ := List.getLast?_eq_some_iff.1 hkey
      rw [← hinit, List.dropLast_concat]
    · cases hkey
  rw [hplace key hfile, hplace key' hfile']

theorem utf8ByteSize_le_of_mem_children {file : String} (h : t.IsSound)
    (hfile : file ∈ t.children names) :
    file.utf8ByteSize ≤ nameLimit := by
  obtain ⟨node, hmem⟩ := mem_children.1 hfile
  exact h.namesFit _ hmem file (by simp)

end IsSound

end FileTree

end VerilogScaffold
