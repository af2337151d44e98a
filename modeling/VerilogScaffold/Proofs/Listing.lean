import Mathlib
import VerilogScaffold.Proofs.Catalog
import VerilogScaffold.Proofs.SoundTree

/-!
# What a listing is worth

A listing goes by the names of what is in the directory of a store, and anyone may put things there.
Each custom entry that is listed should be a template: a regular file, which is read under that name
and goes away when the template is deleted (`TemplateStore.Holds`). `TemplateStore.list_sound` says
which entries are, whatever the directory holds: those that are not directories, and not called as
the bundled template is. What is made by a store is never of these kinds, but
`TemplateStore.not_forall_listed_holds` has a file that was put there by hand.
-/

namespace VerilogScaffold

open Machine
open Template (bundled defaultName isValidName)

namespace TemplateStore

variable {s : TemplateStore} {kind : ScaffoldKind} {name : String} {files : List String}
  {m m' : Machine} {entries : List TemplateEntry} {home place : List String} {content : ByteArray}

/-! ## The names of a listing -/

/-- The custom templates of a kind, going by the names of files. -/
def customNames (kind : ScaffoldKind) (files : List String) : List String :=
  (files.filterMap (nameOfFile? kind)).mergeSort fun a b => decide (a ≤ b)

theorem customNames_nil (kind : ScaffoldKind) : customNames kind [] = [] := List.mergeSort_nil

theorem mem_customNames :
    name ∈ customNames kind files ↔ isValidName name = true ∧ fileOf kind name ∈ files := by
  rw [customNames, List.mem_mergeSort, List.mem_filterMap]
  constructor
  · rintro ⟨file, hmem, hfile⟩
    obtain ⟨hvalid, rfl⟩ := nameOfFile?_eq_some_iff.1 hfile
    exact ⟨hvalid, hmem⟩
  · rintro ⟨hvalid, hmem⟩
    exact ⟨_, hmem, nameOfFile?_eq_some_iff.2 ⟨hvalid, rfl⟩⟩

theorem nodup_customNames (h : files.Nodup) (kind : ScaffoldKind) :
    (customNames kind files).Nodup := by
  refine (List.mergeSort_perm _ _).nodup_iff.2
    (List.Nodup.filterMap (fun file file' name hfile hfile' => ?_) h)
  rw [(nameOfFile?_eq_some_iff.1 hfile).2, (nameOfFile?_eq_some_iff.1 hfile').2]

theorem run_list (s : TemplateStore) (kind : ScaffoldKind) (m : Machine) :
    (s.list kind : StateM Machine _).run m =
      (match m.files.namesIn m.cwd s.directory with
        | .error .notFound => .ok [⟨defaultName, true⟩]
        | .error cause => .error (.files s.directory cause)
        | .ok files => .ok
            (⟨defaultName, true⟩ :: (customNames kind files).map (⟨·, false⟩)), m) := by
  have hnames : (MonadFiles.namesIn s.directory : StateM Machine _).run m =
      (m.files.namesIn m.cwd s.directory, m) := rfl
  rw [list, run_bind_of hnames]
  rcases m.files.namesIn m.cwd s.directory with e | files
  · cases e <;> rfl
  · rfl

theorem run_list_of_node (hdir : m.files.node m.cwd s.directory = .ok (home, .directory))
    (kind : ScaffoldKind) :
    (s.list kind : StateM Machine _).run m =
      (.ok (⟨defaultName, true⟩ :: (customNames kind (m.files.children home)).map (⟨·, false⟩)),
        m) := by
  rw [run_list, FileTree.namesIn, hdir]
  rfl

/-- A listing that succeeds has read a directory, or found none. -/
theorem exists_of_run_list (h : (s.list kind : StateM Machine _).run m = (.ok entries, m')) :
    m' = m ∧ ∃ files, entries = ⟨defaultName, true⟩ :: (customNames kind files).map (⟨·, false⟩) ∧
      (files = [] ∨
        ∃ home, m.files.node m.cwd s.directory = .ok (home, .directory) ∧
          files = m.files.children home) := by
  rw [run_list] at h
  obtain ⟨hentries, hm⟩ := Prod.mk.inj h
  refine ⟨hm.symm, ?_⟩
  split at hentries
  · exact ⟨[], by rw [customNames_nil, ← Except.ok.inj hentries]; rfl, .inl rfl⟩
  · cases hentries
  · rename_i files hfound
    obtain ⟨⟨home, content | _⟩, hnode, hchildren⟩ := FileTree.exists_of_bind_eq_ok hfound
    · cases hchildren
    · exact ⟨files, (Except.ok.inj hentries).symm,
        .inr ⟨home, hnode, (Except.ok.inj hchildren).symm⟩⟩

/-! ## Custom templates that can be used -/

/-- Whether a custom template is a regular file, which is what reading it gives, and what deleting
it takes away. -/
structure Holds (s : TemplateStore) (m : Machine) (kind : ScaffoldKind) (name : String)
    (place : List String) (content : ByteArray) : Prop where
  isFile : m.files.node m.cwd (s.pathOf kind name) = .ok (place, .file content)
  read : ∀ text : String, content = text.toUTF8 →
    (s.read kind name : StateM Machine _).run m = (.ok text, m)
  delete : ∃ t', (s.delete kind name : StateM Machine _).run m = (.ok (), { m with files := t' }) ∧
    t'.node m.cwd (s.pathOf kind name) = .error .notFound ∧ ∀ names ≠ place,
    t'.find? names = m.files.find? names

/-- A file is a template if it is called as files of custom templates are. -/
theorem Holds.of_find? (hdir : m.files.node m.cwd s.directory = .ok (home, .directory))
    (hname : IsCustom name) (hfits : FileTree.Fits s.directory (fileOf kind name))
    (hfile : m.files.find? (home ++ [fileOf kind name]) = some (.file content)) :
    s.Holds m kind name (home ++ [fileOf kind name]) content := by
  obtain ⟨t, cwd, out, err⟩ := m
  have hleads : t.LeadsTo cwd (s.pathOf kind name) (home ++ [fileOf kind name]) :=
    FileTree.leadsTo_join hdir (isFileName_fileOf hname.2) hfits
  refine ⟨?_, ?_, t.remove (home ++ [fileOf kind name]), ?_, ?_, ?_⟩
  · rw [FileTree.node_eq_of_locate hleads.locate, hfile]
    rfl
  · rintro text rfl
    have hread := (answers_readText cwd t (s.pathOf kind name)).run out err
    rw [hleads.readText_file hfile] at hread
    rw [TemplateStore.read, if_neg hname.1, hname.2]
    exact run_bind_of hread _
  · have hremove : (MonadFiles.removeFile (s.pathOf kind name) : StateM Machine _).run ⟨t, cwd, out,
        err⟩ = (.ok (), ⟨t.remove (home ++ [fileOf kind name]), cwd, out, err⟩) :=
      OnFiles.run_change_ok (f := fun t cwd => t.removeFile cwd (s.pathOf kind name))
        (hleads.removeFile_file hfile)
    rw [TemplateStore.delete, if_neg hname.1, hname.2]
    exact run_bind_of hremove _
  · have hfind := FileTree.find?_remove t
      (List.append_ne_nil_of_right_ne_nil home (List.cons_ne_nil (fileOf kind name) []))
    -- the directories that lead to the file are still there
    have hdir' : (t.remove (home ++ [fileOf kind name])).node cwd s.directory =
        .ok (home, .directory) := by
      refine FileTree.node_directory_congr hdir fun names hnames => ?_
      rw [hfind, if_neg, hnames]
      rintro rfl
      rw [hfile] at hnames
      cases hnames
    have hleads' := FileTree.leadsTo_join hdir' (isFileName_fileOf hname.2) hfits
    rw [pathOf_eq, FileTree.node_eq_of_locate hleads'.locate, hfind, if_pos rfl]
  · intro names hnames
    show (t.remove (home ++ [fileOf kind name])).find? names = t.find? names
    rw [FileTree.find?_remove t (List.append_ne_nil_of_right_ne_nil home (List.cons_ne_nil _ _)),
      if_neg hnames]

namespace Holds

variable (h : s.Holds m kind name place content)
include h

theorem ne_default : name ≠ defaultName := by
  intro hdefault
  obtain ⟨t', hdelete, -⟩ := h.delete
  rw [TemplateStore.delete, if_pos hdefault] at hdelete
  cases congrArg Prod.fst hdelete

theorem utf8ByteSize_lt : (s.pathOf kind name).text.utf8ByteSize < FileTree.pathLimit := by
  obtain ⟨found, hfound, -⟩ := FileTree.exists_locate_of_node h.isFile
  obtain ⟨way, hroute, -⟩ := FileTree.exists_of_bind_eq_ok hfound
  exact (FileTree.route_eq_ok_iff.1 hroute).2.2.1

theorem isDirectory_eq_false : m.files.isDirectory m.cwd (s.pathOf kind name) = false := by
  rw [FileTree.isDirectory, h.isFile]
  rfl

end Holds

/-- Whether a template's path leads to a directory is seen in the directory of the store. -/
theorem isDirectory_pathOf (hdir : m.files.node m.cwd s.directory = .ok (home, .directory))
    (hvalid : isValidName name = true) (hfits : FileTree.Fits s.directory (fileOf kind name)) :
    m.files.isDirectory m.cwd (s.pathOf kind name) =
      ((m.files.find? (home ++ [fileOf kind name])).map Node.kind == some .directory) := by
  have hleads := FileTree.leadsTo_join hdir (isFileName_fileOf hvalid) hfits
  rw [pathOf_eq, FileTree.isDirectory, FileTree.node_eq_of_locate hleads.locate]
  rcases m.files.find? (home ++ [fileOf kind name]) with _ | content | _ <;> rfl

/-- What stands under the name of a template's file is a template, unless it is out of reach, is a
directory, or goes by the name of the bundled template. -/
theorem exists_holds_iff (hsound : m.files.IsSound)
    (hdir : m.files.node m.cwd s.directory = .ok (home, .directory))
    (hvalid : isValidName name = true) (hfile : fileOf kind name ∈ m.files.children home) :
    (∃ place content, s.Holds m kind name place content) ↔
      name ≠ defaultName ∧ (s.pathOf kind name).text.utf8ByteSize < FileTree.pathLimit ∧
        m.files.isDirectory m.cwd (s.pathOf kind name) = false := by
  constructor
  · rintro ⟨place, content, hholds⟩
    exact ⟨hholds.ne_default, hholds.utf8ByteSize_lt, hholds.isDirectory_eq_false⟩
  · rintro ⟨hdefault, hshort, hnot⟩
    have hfits : FileTree.Fits s.directory (fileOf kind name) :=
      ⟨hsound.utf8ByteSize_le_of_mem_children hfile, hshort⟩
    obtain ⟨node, hnode⟩ := FileTree.exists_find?_of_mem_children hfile
    rw [isDirectory_pathOf hdir hvalid hfits, hnode] at hnot
    cases node with
    | file content => exact ⟨_, content, .of_find? hdir ⟨hdefault, hvalid⟩ hfits hnode⟩
    | directory => cases hnot

/-- **What a listing is worth, whatever is in the directory.** The custom names are distinct from
each other, and from that of the bundled template if no file is called after it. A custom entry is a
template that can be read and deleted just if it has another name, is not a directory, and its path
is not too long. -/
theorem list_sound (hsound : m.files.IsSound)
    (hlist : (s.list kind : StateM Machine _).run m = (.ok entries, m')) :
    m' = m ∧ ∃ names : List String,
    entries = ⟨defaultName, true⟩ :: names.map (⟨·, false⟩) ∧ names.Nodup ∧
      ((entries.map (·.name)).Nodup ↔ defaultName ∉ names) ∧
      ∀ name ∈ names, (∃ place content, s.Holds m kind name place content) ↔
        name ≠ defaultName ∧ (s.pathOf kind name).text.utf8ByteSize < FileTree.pathLimit ∧
          m.files.isDirectory m.cwd (s.pathOf kind name) = false := by
  obtain ⟨rfl, files, rfl, hfiles⟩ := exists_of_run_list hlist
  have hnodup : (customNames kind files).Nodup := by
    refine nodup_customNames ?_ kind
    rcases hfiles with rfl | ⟨home, -, rfl⟩
    · exact List.nodup_nil
    · exact hsound.nodup_children home
  refine ⟨rfl, customNames kind files, rfl, hnodup, ?_, fun name hname => ?_⟩
  · simp [Function.comp_def, hnodup]
  · obtain ⟨hvalid, hfile⟩ := mem_customNames.1 hname
    rcases hfiles with rfl | ⟨home, hdir, rfl⟩
    · cases hfile
    · exact exists_holds_iff hsound hdir hvalid hfile

/-- A directory with a file and a directory that are called alike. -/
def mixed : Machine where
  files := ⟨[(["t"], .directory), (["t", "a_instance.template"], .file .empty),
    (["t", "d_instance.template"], .directory)]⟩
  cwd := []
  out := ""
  err := ""

theorem list_sound_mixed :
    let s : TemplateStore := ⟨⟨"t"⟩⟩
    mixed.files.IsSound ∧ ∃ names : List String,
      (s.list .instantiation : StateM Machine _).run mixed =
        (.ok (⟨defaultName, true⟩ :: names.map (⟨·, false⟩)), mixed) ∧
      "a" ∈ names ∧ (∃ place content, s.Holds mixed .instantiation "a" place content) ∧
      "d" ∈ names ∧ ¬∃ place content, s.Holds mixed .instantiation "d" place content := by
  intro s
  have hsound : mixed.files.IsSound := ⟨by decide, by decide⟩
  have hdir : mixed.files.node mixed.cwd s.directory = .ok (["t"], .directory) := by cbv
  have hlist := run_list_of_node hdir .instantiation
  obtain ⟨-, names, hentries, -, -, hholds⟩ := list_sound hsound hlist
  rw [hentries] at hlist
  have hnames : customNames .instantiation (mixed.files.children ["t"]) = names :=
    List.map_injective_iff.2 (fun a b hab => congrArg TemplateEntry.name hab)
      (List.cons.inj hentries).2
  have ha : "a" ∈ names := hnames ▸ mem_customNames.2 ⟨by decide, by decide⟩
  have hd : "d" ∈ names := hnames ▸ mem_customNames.2 ⟨by decide, by decide⟩
  have hfits : FileTree.Fits s.directory (fileOf .instantiation "a") := ⟨by decide, by decide⟩
  have hfits' : FileTree.Fits s.directory (fileOf .instantiation "d") := ⟨by decide, by decide⟩
  refine ⟨hsound, names, hlist, ha, (hholds "a" ha).2 ⟨by decide, hfits.path, ?_⟩, hd,
    fun hheld => ?_⟩
  · rw [isDirectory_pathOf hdir (by decide) hfits]
    rfl
  · have hnot := ((hholds "d" hd).1 hheld).2.2
    rw [isDirectory_pathOf hdir (by decide) hfits'] at hnot
    cases hnot

/-- A directory with a file that is called after the bundled template. -/
def shadowed : Machine where
  files := (FileTree.empty.put ["t"] .directory).put ["t", fileOf .instantiation defaultName]
    (.file "x".toUTF8)
  cwd := []
  out := ""
  err := ""

/-- Anyone can put the file there. -/
theorem reachable_shadowed : shadowed.files.Reachable := by
  have hmade : FileTree.empty.makeDirectory [] ⟨"t"⟩ =
      .ok (FileTree.empty.put ["t"] .directory) := by cbv
  have hdir : (FileTree.empty.put ["t"] .directory).node [] ⟨"t"⟩ = .ok (["t"], .directory) := by
    cbv
  have hname : FileTree.IsFileName (fileOf .instantiation defaultName) :=
    isFileName_fileOf (by decide)
  have hleads := FileTree.leadsTo_join hdir hname ⟨by decide, by decide⟩
  have hnone : (FileTree.empty.put ["t"] .directory).find?
      (["t"] ++ [fileOf .instantiation defaultName]) = none := rfl
  have hwrite := hleads.writeBytes (by rw [hnone]; exact (Option.some_ne_none _).symm) "x".toUTF8
  exact (FileTree.Reachable.empty.step (List.forall_mem_nil _) (.makeDirectory _ hmade)).step
    (List.forall_mem_nil _) (.write _ _ hwrite)

/-- Listings do not always have distinct names of templates that can be used: no store makes a
template of the name that the bundled one has, but a file that is there all the same is listed. -/
theorem not_forall_listed_holds :
    ¬∀ (s : TemplateStore) (kind : ScaffoldKind) (m m' : Machine) (entries : List TemplateEntry),
      m.files.Reachable → (s.list kind : StateM Machine _).run m = (.ok entries, m') →
        (entries.map (·.name)).Nodup ∧
          ∀ e ∈ entries, e.isBundled = false → ∃ place content,
          s.Holds m kind e.name place content := by
  intro h
  have hdir : shadowed.files.node shadowed.cwd ⟨"t"⟩ = .ok (["t"], .directory) := by cbv
  have hname : defaultName ∈ customNames .instantiation (shadowed.files.children ["t"]) :=
    mem_customNames.2 ⟨by decide, by simp [shadowed, FileTree.children, FileTree.put]⟩
  obtain ⟨-, hholds⟩ := h ⟨⟨"t"⟩⟩ .instantiation shadowed shadowed _ reachable_shadowed
    (run_list_of_node hdir .instantiation)
  obtain ⟨place, content, hheld⟩ := hholds ⟨defaultName, false⟩
    (List.mem_cons_of_mem _ (List.mem_map.2 ⟨defaultName, hname, rfl⟩)) rfl
  exact hheld.ne_default rfl

end TemplateStore

end VerilogScaffold
