import Mathlib
import VerilogScaffold.Proofs.TemplateFile

/-!
# A store of templates is a map

A store keeps its custom templates in a directory. Whoever asks it sees a map from kinds and names
to texts (`Catalog`): what a request is answered, and what it does to the map, is said without any
file. A catalog also knows whether the directory is there, which matters only to those who write
templates past the store.

`TemplateStore.Reflects` ties a tree to a catalog. Each request keeps it
(`TemplateStore.Reflects.serve`), so a run of requests is answered as by the map, and changes no
file but those of the map (`TemplateStore.serve_refines`).
-/

namespace VerilogScaffold

open Machine
open Template (bundled defaultName isValidName)

namespace TemplateStore

/-! ## Requests -/

/-- What is asked of a store. -/
inductive Request
  | create (kind : ScaffoldKind) (name : String)
  | delete (kind : ScaffoldKind) (name : String)
  | read (kind : ScaffoldKind) (name : String)
  | load (kind : ScaffoldKind) (selected : Option String)
  | list (kind : ScaffoldKind)
  /-- A template's file is written by others. -/
  | write (kind : ScaffoldKind) (name text : String)

inductive Answer
  | created (made : Except TemplateError Path)
  | deleted (gone : Except TemplateError Unit)
  | text (found : Except TemplateError String)
  | entries (found : Except TemplateError (List TemplateEntry))
  | written (done : Except FileError Unit)

/-- Does what a request asks. -/
def serve (s : TemplateStore) : Request → StateM Machine Answer
  | .create kind name => Answer.created <$> s.create kind name
  | .delete kind name => Answer.deleted <$> s.delete kind name
  | .read kind name => Answer.text <$> s.read kind name
  | .load kind selected => Answer.text <$> s.load kind selected
  | .list kind => Answer.entries <$> s.list kind
  | .write kind name text => Answer.written <$> Files.writeText (s.pathOf kind name) text

/-- Whether a name is one that custom templates can have. -/
def IsCustom (name : String) : Prop := name ≠ defaultName ∧ isValidName name = true

instance (name : String) : Decidable (IsCustom name) := inferInstanceAs (Decidable (_ ∧ _))

/-- Whether the files that a request is about can be there. Others write no file but those of custom
templates. -/
def Request.Fits (s : TemplateStore) : Request → Prop
  | .create kind name | .delete kind name | .read kind name | .load kind (some name) =>
    IsCustom name → FileTree.Fits s.directory (fileOf kind name)
  | .load _ none | .list _ => True
  | .write kind name _ => IsCustom name ∧ FileTree.Fits s.directory (fileOf kind name)

end TemplateStore

/-! ## Catalogs -/

/-- The custom templates of a store. -/
structure Catalog where
  /-- Whether the directory of the store is there. -/
  isMade : Bool
  text? : ScaffoldKind → String → Option String

namespace Catalog

open TemplateStore (IsCustom)

/-- A catalog without templates. -/
def bare (isMade : Bool) : Catalog := ⟨isMade, fun _ _ => none⟩

/-- Sets what there is of a kind and a name. -/
def put (c : Catalog) (kind : ScaffoldKind) (name : String) (text? : Option String) : Catalog :=
  { c with text? := fun k n => if k = kind ∧ n = name then text? else c.text? k n }

/-- The answer for a name: the bundled template comes first, then names that are not valid. -/
def checked {α : Type} (name : String) (ofBundled ofCustom : Except TemplateError α) :
    Except TemplateError α :=
  if name = defaultName then ofBundled else if isValidName name then ofCustom
    else .error (.invalidName name)

/-- Whether an answer is the one that a catalog gives. -/
def Gives (c : Catalog) (s : TemplateStore) : TemplateStore.Request → TemplateStore.Answer → Prop
  | .create kind name, answer =>
    answer = .created (checked name (.error .bundled)
      (if (c.text? kind name).isSome then .error (.alreadyExists kind name)
        else .ok (s.pathOf kind name)))
  | .delete kind name, answer =>
    answer = .deleted (checked name (.error .bundled)
      (if (c.text? kind name).isSome then .ok () else .error (.notFound kind name)))
  | .read kind name, answer =>
    answer = .text (checked name (.ok (bundled kind))
      ((c.text? kind name).elim (.error (.notFound kind name)) .ok))
  | .load kind none, answer => answer = .text (.ok (bundled kind))
  | .load kind (some name), answer =>
    answer = .text (checked name (.ok (bundled kind))
      (.ok ((c.text? kind name).getD (bundled kind))))
  | .list kind, answer =>
    ∃ names : List String, answer = .entries (.ok (⟨defaultName, true⟩ :: names.map (⟨·, false⟩))) ∧
      names.Pairwise (fun a b => Template.bytes a < Template.bytes b) ∧
      ∀ name, name ∈ names ↔ (c.text? kind name).isSome
  | .write _ _ _, answer => answer = .written (if c.isMade then .ok () else .error .notFound)

/-- The catalog after a request. -/
def after (c : Catalog) : TemplateStore.Request → Catalog
  | .create kind name =>
    -- the text of a template that is there stays as it is
    if IsCustom name then
      { c.put kind name (some ((c.text? kind name).getD (bundled kind))) with isMade := true }
    else c
  | .delete kind name => if IsCustom name then c.put kind name none else c
  | .write kind name text => if c.isMade then c.put kind name (some text) else c
  | .read _ _ | .load _ _ | .list _ => c

/-- Whether requests, one after the other, get the answers that a catalog gives. -/
inductive Serves (s : TemplateStore) :
    Catalog → List TemplateStore.Request → List TemplateStore.Answer → Prop
  | nil (c : Catalog) : Serves s c [] []
  | cons {c : Catalog} {request : TemplateStore.Request} {answer : TemplateStore.Answer}
      {requests : List TemplateStore.Request} {answers : List TemplateStore.Answer}
      (first : c.Gives s request answer) (others : Serves s (c.after request) requests answers) :
      Serves s c (request :: requests) (answer :: answers)

theorem text?_put (c : Catalog) (kind k : ScaffoldKind) (name n : String) (text? : Option String) :
    (c.put kind name text?).text? k n = if k = kind ∧ n = name then text? else c.text? k n := rfl

/-- Setting what is there changes nothing. -/
theorem put_self (c : Catalog) (kind : ScaffoldKind) (name : String) :
    c.put kind name (c.text? kind name) = c := by
  have htext :
      (fun k n => if k = kind ∧ n = name then c.text? kind name else c.text? k n) = c.text? := by
    funext k n
    split
    · rename_i heq
      rw [heq.1, heq.2]
    · rfl
  rw [put, htext]

theorem put_none {c : Catalog} {kind : ScaffoldKind} {name : String}
    (h : c.text? kind name = none) :
    c.put kind name none = c := by
  have hself := c.put_self kind name
  rwa [h] at hself

/-- What is done for a name, if names that are not custom are turned away first. -/
theorem run_checked {α : Type} {name : String} {ofBundled ofCustom : Except TemplateError α}
    {x : StateM Machine (Except TemplateError α)} {m m' : Machine}
    (hcustom : IsCustom name → x.run m = (ofCustom, m'))
    (hother : ¬IsCustom name → m' = m) :
    (if name = defaultName then pure ofBundled
      else if !isValidName name then pure (.error (.invalidName name))
        else x : StateM Machine _).run m =
      (checked name ofBundled ofCustom, m') := by
  by_cases hdefault : name = defaultName
  · rw [if_pos hdefault, checked, if_pos hdefault, hother fun hname => hname.1 hdefault]
    rfl
  · rcases hvalid : isValidName name
    · rw [if_neg hdefault, checked, if_neg hdefault, hvalid,
        hother fun hname => Bool.false_ne_true (hvalid.symm.trans hname.2)]
      rfl
    · rw [if_neg hdefault, checked, if_neg hdefault, hvalid]
      exact hcustom ⟨hdefault, hvalid⟩

end Catalog

namespace TemplateStore

/-! ## The files of a catalog -/

/-- The files, once the directory of a store is made. -/
def prepared (s : TemplateStore) (cwd : List String) (t : FileTree) : FileTree :=
  (perform (Files.ensureDirectories s.directory) cwd t).2

/-- Whether the directory of a store can be made, or is there, with nothing in it. -/
structure Creatable (s : TemplateStore) (cwd : List String) (t : FileTree) : Prop where
  made : (perform (Files.ensureDirectories s.directory) cwd t).1 = .ok ()
  empty : (s.prepared cwd t).namesIn cwd s.directory = .ok []

/-- Whether a tree holds just the templates of a catalog in the directory `home`, and is as `base`
elsewhere. -/
structure Stocked (base : FileTree) (home : List String) (c : Catalog) (t : FileTree) : Prop where
  custom : ∀ kind name, (c.text? kind name).isSome → IsCustom name
  file : ∀ kind name, IsCustom name →
    t.find? (home ++ [fileOf kind name]) = (c.text? kind name).map fun text => .file text.toUTF8
  elsewhere : ∀ names, (∀ kind name, IsCustom name → names ≠ home ++ [fileOf kind name]) →
    t.find? names = base.find? names
  nodup : (t.children home).Nodup
  mem_children : ∀ file, file ∈ t.children home ↔ ∃ kind name, (c.text? kind name).isSome ∧
    file = fileOf kind name

/-- Whether a tree is what a catalog says. As long as the directory is not made, nothing has
changed. -/
inductive Reflects (s : TemplateStore) (cwd : List String) (start : FileTree) (home : List String) :
    Catalog → FileTree → Prop
  | unmade (missing : start.node cwd s.directory = .error .notFound) :
      Reflects s cwd start home (.bare false) start
  | made {c : Catalog} {t : FileTree} (isMade : c.isMade = true)
      (stocked : Stocked (s.prepared cwd start) home c t) :
      Reflects s cwd start home c t

namespace Stocked

variable {base t : FileTree} {home : List String} {c : Catalog}
  {kind : ScaffoldKind} {name : String}

theorem congr {c' : Catalog} (h : Stocked base home c t) (htext : c'.text? = c.text?) :
    Stocked base home c' t := by
  obtain ⟨isMade, text?⟩ := c'
  obtain rfl : text? = c.text? := htext
  exact ⟨h.custom, h.file, h.elsewhere, h.nodup, h.mem_children⟩

/-- The files of a catalog after one template was set: the file of that template, and the others as
before. -/
theorem exists_fileOf_put (c : Catalog) (kind : ScaffoldKind) (name : String)
    (text? : Option String) (file : String) :
    (∃ k n, ((c.put kind name text?).text? k n).isSome ∧ file = fileOf k n) ↔
      file ∈ (text?.map fun _ => fileOf kind name).toList ∨
        (∃ k n, (c.text? k n).isSome ∧ file = fileOf k n) ∧ (file != fileOf kind name) = true := by
  constructor
  · rintro ⟨k, n, hsome, rfl⟩
    rw [Catalog.text?_put] at hsome
    split at hsome
    · rename_i heq
      obtain ⟨rfl, rfl⟩ := heq
      left
      simpa [Option.isSome_iff_exists] using hsome
    · rename_i hother
      exact .inr ⟨⟨k, n, hsome, rfl⟩, by simpa [fileOf_inj] using hother⟩
  · rintro (hmem | ⟨⟨k, n, hsome, rfl⟩, hne⟩)
    · obtain ⟨text, rfl, rfl⟩ :
          ∃ text, text? = some text ∧ fileOf kind name = file := by simpa using hmem
      exact ⟨kind, name, by simp [Catalog.text?_put], rfl⟩
    · have hother : ¬(k = kind ∧ n = name) := by simpa [fileOf_inj] using hne
      exact ⟨k, n, by rwa [Catalog.text?_put, if_neg hother], rfl⟩

/-- Nothing but the file of a template has been changed. -/
private theorem change {t' : FileTree} {text? : Option String} (h : Stocked base home c t)
    (hname : IsCustom name) (hfind : ∀ names, t'.find? names =
      if names = home ++ [fileOf kind name] then text?.map fun text => .file text.toUTF8
        else t.find? names)
    (hchildren : t'.children home =
      (text?.map fun _ => fileOf kind name).toList ++
        (t.children home).filter (· != fileOf kind name)) :
    Stocked base home (c.put kind name text?) t' where
  custom k n hsome := by
    rw [Catalog.text?_put] at hsome
    split at hsome
    · rename_i heq
      exact heq.2 ▸ hname
    · exact h.custom k n hsome
  file k n hn := by
    rw [hfind, Catalog.text?_put]
    by_cases heq : k = kind ∧ n = name
    · obtain ⟨rfl, rfl⟩ := heq
      simp
    · rw [if_neg, if_neg heq, h.file k n hn]
      simpa [fileOf_inj] using heq
  elsewhere names hnames := by
    rw [hfind, if_neg (hnames kind name hname)]
    exact h.elsewhere names hnames
  nodup := by
    rw [hchildren]
    have hfilter := h.nodup.filter (· != fileOf kind name)
    rcases text? with _ | text
    · exact hfilter
    · exact List.nodup_cons.2 ⟨by simp, hfilter⟩
  mem_children file := by
    rw [hchildren, List.mem_append, List.mem_filter, h.mem_children]
    exact (exists_fileOf_put c kind name text? file).symm

theorem put (h : Stocked base home c t) (hname : IsCustom name) (kind : ScaffoldKind)
    (text : String) :
    Stocked base home (c.put kind name (some text))
      (t.put (home ++ [fileOf kind name]) (.file text.toUTF8)) :=
  h.change hname (FileTree.find?_put t
    (List.append_ne_nil_of_right_ne_nil home (List.cons_ne_nil _ _)) _)
    (FileTree.children_put t home (fileOf kind name) _)

theorem remove (h : Stocked base home c t) (hname : IsCustom name) (kind : ScaffoldKind) :
    Stocked base home (c.put kind name none) (t.remove (home ++ [fileOf kind name])) :=
  h.change hname (FileTree.find?_remove t
    (List.append_ne_nil_of_right_ne_nil home (List.cons_ne_nil _ _)))
    (FileTree.children_remove t home (fileOf kind name))

end Stocked

/-- Whether the directory of a store can be made, and is `home` then. -/
structure Home (s : TemplateStore) (cwd : List String) (start : FileTree)
    (home : List String) : Prop where
  made : (perform (Files.ensureDirectories s.directory) cwd start).1 = .ok ()
  leads : (s.prepared cwd start).node cwd s.directory = .ok (home, .directory)
  empty : (s.prepared cwd start).children home = []

section Reflects

variable {s : TemplateStore} {cwd home : List String} {start t : FileTree} {c : Catalog}
  {kind : ScaffoldKind} {name : String}

theorem Creatable.exists_home (h : s.Creatable cwd start) : ∃ home, s.Home cwd start home := by
  have hempty := h.empty
  rw [FileTree.namesIn] at hempty
  rcases hnode : (s.prepared cwd start).node cwd s.directory with e | ⟨home, content | _⟩ <;>
    rw [hnode] at hempty
  · cases hempty
  · cases hempty
  · exact ⟨home, h.made, hnode, Except.ok.inj hempty⟩

namespace Home

theorem stocked_bare (hhome : s.Home cwd start home) (isMade : Bool) :
    Stocked (s.prepared cwd start) home (.bare isMade) (s.prepared cwd start) where
  custom _ _ hsome := nomatch hsome
  file kind name _ := FileTree.find?_of_not_mem_children (by simp [hhome.empty])
  elsewhere _ _ := rfl
  nodup := by simp [hhome.empty]
  mem_children file := by simp [hhome.empty, Catalog.bare]

/-- The files of templates are not in the way of the directory. -/
theorem node_of_stocked (hhome : s.Home cwd start home)
    (h : Stocked (s.prepared cwd start) home c t) :
    t.node cwd s.directory = .ok (home, .directory) := by
  refine FileTree.node_directory_congr hhome.leads fun names hnames => ?_
  rw [h.elsewhere names, hnames]
  rintro kind name - rfl
  rw [FileTree.find?_of_not_mem_children (by simp [hhome.empty])] at hnames
  cases hnames

theorem leadsTo (hhome : s.Home cwd start home) (h : Stocked (s.prepared cwd start) home c t)
    (hname : IsCustom name) (hfits : FileTree.Fits s.directory (fileOf kind name)) :
    t.LeadsTo cwd (s.pathOf kind name) (home ++ [fileOf kind name]) :=
  FileTree.leadsTo_join (hhome.node_of_stocked h) (isFileName_fileOf hname.2) hfits

theorem leadsNowhere (hhome : s.Home cwd start home)
    (hmissing : start.node cwd s.directory = .error .notFound)
    (hname : IsCustom name) (hfits : FileTree.Fits s.directory (fileOf kind name)) :
    start.LeadsNowhere cwd (s.pathOf kind name) := by
  obtain ⟨here, steps, hroute, -, -⟩ := FileTree.exists_walk_of_node hhome.leads
  exact FileTree.leadsNowhere_join hroute hmissing (isFileName_fileOf hname.2) hfits

end Home

namespace Reflects

/-- At the start there are no templates. -/
theorem initial (hhome : s.Home cwd start home) :
    Reflects s cwd start home (.bare (start.isDirectory cwd s.directory)) start := by
  have hne : s.directory.text ≠ "" := by
    obtain ⟨here, steps, hroute, -, -⟩ := FileTree.exists_walk_of_node hhome.leads
    obtain ⟨-, hne, -⟩ := FileTree.route_eq_ok_iff.1 hroute
    exact fun hempty => hne (String.toList_eq_nil_iff.2 hempty)
  rcases FileTree.node_of_ensureDirectories hne hhome.made with ⟨there, hthere⟩ | hmissing
  · have hprepared : s.prepared cwd start = start :=
      congrArg Prod.snd (FileTree.ensureDirectories_of_node hthere)
    have hstocked := hhome.stocked_bare true
    rw [FileTree.isDirectory, hthere]
    refine .made rfl ?_
    rw [hprepared] at hstocked ⊢
    exact hstocked
  · rw [FileTree.isDirectory, hmissing]
    exact .unmade hmissing

/-- Making the directory changes nothing but that it is there. -/
theorem ensureDirectories (hhome : s.Home cwd start home) (h : Reflects s cwd start home c t)
    (out err : String) :
    ∃ t', (Files.ensureDirectories s.directory : StateM Machine _).run ⟨t, cwd, out, err⟩ =
        (.ok (), ⟨t', cwd, out, err⟩) ∧ Stocked (s.prepared cwd start) home c t' := by
  rw [(KeepsFiles.ensureDirectories s.directory).onFiles]
  cases h with
  | unmade hmissing => exact ⟨_, by rw [hhome.made]; rfl, hhome.stocked_bare false⟩
  | made isMade stocked =>
    rw [FileTree.ensureDirectories_of_node (hhome.node_of_stocked stocked)]
    exact ⟨t, rfl, stocked⟩

theorem readText (hhome : s.Home cwd start home) (h : Reflects s cwd start home c t)
    (hname : IsCustom name) (hfits : FileTree.Fits s.directory (fileOf kind name)) :
    t.readText cwd (s.pathOf kind name) = (c.text? kind name).elim (.error .notFound) .ok := by
  cases h with
  | unmade hmissing => exact (hhome.leadsNowhere hmissing hname hfits).readText
  | made isMade stocked =>
    have hleads := hhome.leadsTo stocked hname hfits
    have hfile := stocked.file kind name hname
    rcases htext : c.text? kind name with _ | text <;> rw [htext] at hfile
    · exact hleads.readText_none hfile
    · exact hleads.readText_file hfile

/-! ## One request -/

theorem run_create (hhome : s.Home cwd start home) (h : Reflects s cwd start home c t)
    (hfits : IsCustom name → FileTree.Fits s.directory (fileOf kind name)) (out err : String) :
    ∃ t', (s.create kind name : StateM Machine _).run ⟨t, cwd, out, err⟩ =
        (Catalog.checked name (.error .bundled)
          (if (c.text? kind name).isSome then .error (.alreadyExists kind name)
            else .ok (s.pathOf kind name)), ⟨t', cwd, out, err⟩) ∧
      Reflects s cwd start home (c.after (.create kind name)) t' := by
  rw [create, Catalog.after]
  by_cases hname : IsCustom name
  · rw [if_pos hname]
    obtain ⟨t', hprepare, hstocked⟩ := h.ensureDirectories hhome out err
    have hleads := hhome.leadsTo hstocked hname (hfits hname)
    have hfile := hstocked.file kind name hname
    rcases htext : c.text? kind name with _ | text <;> rw [htext] at hfile
    · let made := t'.put (home ++ [fileOf kind name]) (.file (bundled kind).toUTF8)
      have hcreate : (Files.createText (s.pathOf kind name) (bundled kind) : StateM Machine _).run
          ⟨t', cwd, out, err⟩ = (.ok (), ⟨made, cwd, out, err⟩) :=
        OnFiles.run_change_ok (f := fun t cwd =>
          t.createBytes cwd (s.pathOf kind name) (bundled kind).toUTF8)
          (hleads.createBytes_none hfile _)
      refine ⟨made, Catalog.run_checked (fun _ => ?_) (absurd hname), ?_⟩
      · exact (run_bind_of hprepare _).trans ((run_bind_of hcreate _).trans rfl)
      · exact .made rfl ((hstocked.put hname kind (bundled kind)).congr rfl)
    · have hcreate : (Files.createText (s.pathOf kind name) (bundled kind) : StateM Machine _).run
          ⟨t', cwd, out, err⟩ = (.error .alreadyExists, ⟨t', cwd, out, err⟩) :=
        OnFiles.run_change_error (f := fun t cwd =>
          t.createBytes cwd (s.pathOf kind name) (bundled kind).toUTF8)
          (hleads.createBytes_some hfile _)
      refine ⟨t', Catalog.run_checked (fun _ => ?_) (absurd hname), ?_⟩
      · exact (run_bind_of hprepare _).trans ((run_bind_of hcreate _).trans rfl)
      · rw [Option.getD_some, ← htext, Catalog.put_self]
        exact .made rfl (hstocked.congr rfl)
  · rw [if_neg hname]
    exact ⟨t, Catalog.run_checked (absurd · hname) fun _ => rfl, h⟩

theorem run_removeFile (hhome : s.Home cwd start home) (h : Reflects s cwd start home c t)
    (hname : IsCustom name)
    (hfits : FileTree.Fits s.directory (fileOf kind name)) (out err : String) :
    ∃ t', (MonadFiles.removeFile (s.pathOf kind name) : StateM Machine _).run ⟨t, cwd, out, err⟩ =
        (if (c.text? kind name).isSome then .ok () else .error .notFound, ⟨t', cwd, out, err⟩) ∧
      Reflects s cwd start home (c.put kind name none) t' := by
  cases h with
  | unmade hmissing =>
    rw [Catalog.put_none rfl]
    exact ⟨start, OnFiles.run_change_error (f := fun t cwd => t.removeFile cwd (s.pathOf kind name))
      (hhome.leadsNowhere hmissing hname hfits).removeFile, .unmade hmissing⟩
  | made isMade stocked =>
    have hleads := hhome.leadsTo stocked hname hfits
    have hfile := stocked.file kind name hname
    rcases htext : c.text? kind name with _ | text <;> rw [htext] at hfile
    · rw [Catalog.put_none htext]
      exact ⟨t, OnFiles.run_change_error (f := fun t cwd => t.removeFile cwd (s.pathOf kind name))
        (hleads.removeFile_none hfile), .made isMade stocked⟩
    · exact ⟨_, OnFiles.run_change_ok (f := fun t cwd => t.removeFile cwd (s.pathOf kind name))
        (hleads.removeFile_file hfile), .made isMade (stocked.remove hname kind)⟩

theorem run_delete (hhome : s.Home cwd start home) (h : Reflects s cwd start home c t)
    (hfits : IsCustom name → FileTree.Fits s.directory (fileOf kind name)) (out err : String) :
    ∃ t', (s.delete kind name : StateM Machine _).run ⟨t, cwd, out, err⟩ =
        (Catalog.checked name (.error .bundled)
          (if (c.text? kind name).isSome then .ok () else .error (.notFound kind name)),
          ⟨t', cwd, out, err⟩) ∧
      Reflects s cwd start home (c.after (.delete kind name)) t' := by
  rw [delete, Catalog.after]
  by_cases hname : IsCustom name
  · rw [if_pos hname]
    obtain ⟨t', hremove, hafter⟩ := h.run_removeFile hhome hname (hfits hname) out err
    refine ⟨t', Catalog.run_checked (fun _ => (run_bind_of hremove _).trans ?_)
      (absurd hname), hafter⟩
    cases (c.text? kind name).isSome <;> rfl
  · rw [if_neg hname]
    exact ⟨t, Catalog.run_checked (absurd · hname) fun _ => rfl, h⟩

theorem run_readText (hhome : s.Home cwd start home) (h : Reflects s cwd start home c t)
    (hname : IsCustom name)
    (hfits : FileTree.Fits s.directory (fileOf kind name)) (out err : String) :
    (Files.readText (s.pathOf kind name) : StateM Machine _).run ⟨t, cwd, out, err⟩ =
      ((c.text? kind name).elim (.error .notFound) .ok, ⟨t, cwd, out, err⟩) := by
  have hread := (answers_readText cwd t (s.pathOf kind name)).run out err
  rwa [h.readText hhome hname hfits] at hread

theorem run_read (hhome : s.Home cwd start home) (h : Reflects s cwd start home c t)
    (hfits : IsCustom name → FileTree.Fits s.directory (fileOf kind name)) (out err : String) :
    (s.read kind name : StateM Machine _).run ⟨t, cwd, out, err⟩ =
      (Catalog.checked name (.ok (bundled kind))
        ((c.text? kind name).elim (.error (.notFound kind name)) .ok),
        ⟨t, cwd, out, err⟩) := by
  rw [read]
  refine Catalog.run_checked (fun hname => ?_) fun _ => rfl
  refine (run_bind_of (h.run_readText hhome hname (hfits hname) out err) _).trans ?_
  cases c.text? kind name <;> rfl

theorem run_load (hhome : s.Home cwd start home) (h : Reflects s cwd start home c t)
    (hfits : IsCustom name → FileTree.Fits s.directory (fileOf kind name)) (out err : String) :
    (s.load kind (some name) : StateM Machine _).run ⟨t, cwd, out, err⟩ =
      (Catalog.checked name (.ok (bundled kind)) (.ok ((c.text? kind name).getD (bundled kind))),
        ⟨t, cwd, out, err⟩) := by
  rw [load]
  refine Catalog.run_checked (fun hname => ?_) fun _ => rfl
  refine (run_bind_of (h.run_readText hhome hname (hfits hname) out err) _).trans ?_
  cases c.text? kind name <;> rfl

theorem run_write (hhome : s.Home cwd start home) (h : Reflects s cwd start home c t)
    (hname : IsCustom name)
    (hfits : FileTree.Fits s.directory (fileOf kind name)) (text out err : String) :
    ∃ t', (Files.writeText (s.pathOf kind name) text : StateM Machine _).run ⟨t, cwd, out, err⟩ =
        (if c.isMade then .ok () else .error .notFound, ⟨t', cwd, out, err⟩) ∧
      Reflects s cwd start home (c.after (.write kind name text)) t' := by
  cases h with
  | unmade hmissing =>
    exact ⟨start, OnFiles.run_change_error (f := fun t cwd =>
      t.writeBytes cwd (s.pathOf kind name) text.toUTF8)
      ((hhome.leadsNowhere hmissing hname hfits).writeBytes _), .unmade hmissing⟩
  | made isMade stocked =>
    rw [if_pos isMade, Catalog.after, if_pos isMade]
    have hnot : t.find? (home ++ [fileOf kind name]) ≠ some .directory := by
      rw [stocked.file kind name hname]
      cases c.text? kind name <;> simp
    exact ⟨_, OnFiles.run_change_ok (f := fun t cwd =>
      t.writeBytes cwd (s.pathOf kind name) text.toUTF8)
      ((hhome.leadsTo stocked hname hfits).writeBytes hnot _),
      .made isMade (stocked.put hname kind text)⟩

theorem mem_listing (h : Stocked (s.prepared cwd start) home c t) :
    name ∈ (t.children home).filterMap (nameOfFile? kind) ↔ (c.text? kind name).isSome := by
  rw [List.mem_filterMap]
  constructor
  · rintro ⟨file, hmem, hfile⟩
    obtain ⟨-, rfl⟩ := nameOfFile?_eq_some_iff.1 hfile
    obtain ⟨k, n, hsome, heq⟩ := (h.mem_children _).1 hmem
    obtain ⟨rfl, rfl⟩ := fileOf_inj.1 heq
    exact hsome
  · intro hsome
    exact ⟨_, (h.mem_children _).2 ⟨kind, name, hsome, rfl⟩,
      nameOfFile?_eq_some_iff.2 ⟨(h.custom kind name hsome).2, rfl⟩⟩

/-- A listing is in the order of bytes, without repetition. -/
theorem pairwise_listing (h : Stocked (s.prepared cwd start) home c t) (kind : ScaffoldKind) :
    (((t.children home).filterMap (nameOfFile? kind)).mergeSort fun a b => decide (a ≤ b)).Pairwise
      fun a b => Template.bytes a < Template.bytes b := by
  let names := (t.children home).filterMap (nameOfFile? kind)
  let le : String → String → Bool := fun a b => decide (a ≤ b)
  have hnodup : names.Nodup := by
    refine List.Nodup.filterMap (fun file file' name hfile hfile' => ?_) h.nodup
    rw [(nameOfFile?_eq_some_iff.1 hfile).2, (nameOfFile?_eq_some_iff.1 hfile').2]
  have hdistinct : (names.mergeSort le).Pairwise (· ≠ ·) :=
    (List.mergeSort_perm names le).nodup_iff.2 hnodup
  have hsorted : (names.mergeSort le).Pairwise fun a b => le a b = true := by
    refine List.pairwise_mergeSort (fun a b c hab hbc => ?_) (fun a b => ?_) names
    · exact decide_eq_true (String.le_trans (of_decide_eq_true hab) (of_decide_eq_true hbc))
    · simp [le, String.le_total]
  have hvalid : ∀ name ∈ names.mergeSort le, isValidName name = true := fun name hname =>
    (h.custom kind name ((mem_listing h).1 (List.mem_mergeSort.1 hname))).2
  refine (hsorted.and hdistinct).imp_of_mem fun {a b} ha hb hab => ?_
  rw [Template.bytes_lt_iff (hvalid a ha) (hvalid b hb)]
  have hle : a ≤ b := of_decide_eq_true hab.1
  exact Decidable.byContradiction fun hlt => hab.2 (String.le_antisymm hle (String.not_lt.1 hlt))

theorem exists_run_list (hhome : s.Home cwd start home) (h : Reflects s cwd start home c t)
    (kind : ScaffoldKind) (out err : String) :
    ∃ found, (s.list kind : StateM Machine _).run ⟨t, cwd, out, err⟩ = (found, ⟨t, cwd, out, err⟩) ∧
      c.Gives s (.list kind) (.entries found) := by
  have hnames : (MonadFiles.namesIn s.directory : StateM Machine _).run ⟨t, cwd, out, err⟩ =
      (t.namesIn cwd s.directory, ⟨t, cwd, out, err⟩) := rfl
  cases h with
  | unmade hmissing =>
    rw [FileTree.namesIn, hmissing] at hnames
    exact ⟨_, run_bind_of hnames _, [], rfl, .nil, by simp [Catalog.bare]⟩
  | made isMade stocked =>
    rw [FileTree.namesIn, hhome.node_of_stocked stocked] at hnames
    exact ⟨_, run_bind_of hnames _, _, rfl, pairwise_listing stocked kind,
      fun name => List.mem_mergeSort.trans (mem_listing stocked)⟩

/-- **A request is answered as by the map**, and leaves the files of the map. -/
theorem serve (hhome : s.Home cwd start home) (h : Reflects s cwd start home c t)
    (request : Request) (hfits : request.Fits s) (out err : String) :
    ∃ answer t', (s.serve request).run ⟨t, cwd, out, err⟩ = (answer, ⟨t', cwd, out, err⟩) ∧
      c.Gives s request answer ∧ Reflects s cwd start home (c.after request) t' := by
  cases request with
  | create kind name =>
    obtain ⟨t', hrun, hafter⟩ := h.run_create hhome hfits out err
    exact ⟨_, t', run_map_of hrun _, rfl, hafter⟩
  | delete kind name =>
    obtain ⟨t', hrun, hafter⟩ := h.run_delete hhome hfits out err
    exact ⟨_, t', run_map_of hrun _, rfl, hafter⟩
  | read kind name => exact ⟨_, t, run_map_of (h.run_read hhome hfits out err) _, rfl, h⟩
  | load kind selected =>
    rcases selected with _ | name
    · exact ⟨_, t, rfl, rfl, h⟩
    · exact ⟨_, t, run_map_of (h.run_load hhome hfits out err) _, rfl, h⟩
  | list kind =>
    obtain ⟨found, hrun, hgives⟩ := h.exists_run_list hhome kind out err
    exact ⟨_, t, run_map_of hrun _, hgives, h⟩
  | write kind name text =>
    obtain ⟨t', hrun, hafter⟩ := h.run_write hhome hfits.1 hfits.2 text out err
    exact ⟨_, t', run_map_of hrun _, rfl, hafter⟩

/-- A run of requests. -/
theorem serves (hhome : s.Home cwd start home) (h : Reflects s cwd start home c t)
    (requests : List Request) (hfits : ∀ request ∈ requests, request.Fits s) (out err : String) :
    ∃ answers t', (requests.mapM s.serve).run ⟨t, cwd, out, err⟩ = (answers, ⟨t', cwd, out, err⟩) ∧
      c.Serves s requests answers ∧
      Reflects s cwd start home (requests.foldl Catalog.after c) t' := by
  induction requests generalizing c t with
  | nil => exact ⟨[], t, rfl, .nil c, h⟩
  | cons request requests ih =>
    obtain ⟨hfirst, hothers⟩ := List.forall_mem_cons.1 hfits
    obtain ⟨answer, t', hrun, hgives, hafter⟩ := h.serve hhome request hfirst out err
    obtain ⟨answers, t'', hruns, hserves, hafters⟩ := ih hafter hothers
    refine ⟨answer :: answers, t'', ?_, .cons hgives hserves, hafters⟩
    rw [List.mapM_cons]
    exact (run_bind_of hrun _).trans ((run_bind_of hruns _).trans rfl)

end Reflects

/-! ## Runs -/

/-- Templates of different names or kinds are in different files. -/
theorem pathOf_inj {kind' : ScaffoldKind} {name' : String} (h : isValidName name = true)
    (h' : isValidName name' = true)
    (heq : s.pathOf kind name = s.pathOf kind' name') : kind = kind' ∧ name = name' := by
  obtain ⟨front, hfront⟩ := FileTree.exists_text_join s.directory
  have htext := congrArg (fun path : Path => path.text.toList) heq
  simp only [pathOf_eq, hfront _ (isFileName_fileOf h), hfront _ (isFileName_fileOf h'),
    String.toList_append, List.append_cancel_left_eq, String.toList_inj] at htext
  exact fileOf_inj.1 htext

/-- **A store of templates is a map.** Requests are answered as by the map that starts without
templates, and the files are those of the map: one in the directory for each template, and all else
as it was, but for the directories that are made with the first template. No two templates share a
path. -/
theorem serve_refines (hs : s.Creatable cwd start) (requests : List Request)
    (hfits : ∀ request ∈ requests, request.Fits s) (out err : String) :
    let c := Catalog.bare (start.isDirectory cwd s.directory)
    (∃ home answers t', (s.prepared cwd start).node cwd s.directory = .ok (home, .directory) ∧
      (requests.mapM s.serve).run ⟨start, cwd, out, err⟩ = (answers, ⟨t', cwd, out, err⟩) ∧
      c.Serves s requests answers ∧ Reflects s cwd start home (requests.foldl Catalog.after c) t') ∧
    SameFiles start (s.prepared cwd start) ∧
    ∀ kind name kind' name', isValidName name = true → isValidName name' = true →
      s.pathOf kind name = s.pathOf kind' name' → kind = kind' ∧ name = name' := by
  obtain ⟨home, hhome⟩ := hs.exists_home
  obtain ⟨answers, t', hruns, hserves, hafters⟩ :=
    (Reflects.initial hhome).serves hhome requests hfits out err
  exact ⟨⟨home, answers, t', hhome.leads, hruns, hserves, hafters⟩,
    (KeepsFiles.ensureDirectories s.directory).sameFiles cwd start, fun _ _ _ _ => pathOf_inj⟩

end Reflects

/-- The name of the one template ends as the files of the other kind do. -/
theorem serve_refines_suffixed :
    let s : TemplateStore := ⟨⟨"t"⟩⟩
    let requests : List Request :=
      [.create .instantiation "a_testbench", .write .testbench "a" "x", .list .testbench,
        .delete .instantiation "a_testbench", .read .testbench "a"]
    s.Creatable [] .empty ∧ (∀ request ∈ requests, request.Fits s) ∧
      ∃ answers t', (requests.mapM s.serve).run ⟨.empty, [], "", ""⟩ = (answers, ⟨t', [], "", ""⟩) ∧
        (Catalog.bare false).Serves s requests answers := by
  intro s requests
  have hcreatable : s.Creatable [] .empty := ⟨by cbv, by cbv⟩
  have hmissing : FileTree.empty.isDirectory [] s.directory = false := by cbv
  have hinstance : FileTree.Fits s.directory (fileOf .instantiation "a_testbench") :=
    ⟨by decide, by decide⟩
  have htestbench : FileTree.Fits s.directory (fileOf .testbench "a") := ⟨by decide, by decide⟩
  have hfits : ∀ request ∈ requests, request.Fits s := by
    simp only [requests, List.forall_mem_cons]
    exact ⟨fun _ => hinstance, ⟨by decide, htestbench⟩, trivial, fun _ => hinstance, fun _ =>
      htestbench, List.forall_mem_nil _⟩
  obtain ⟨⟨home, answers, t', -, hruns, hserves, -⟩, -, -⟩ :=
    serve_refines hcreatable requests hfits "" ""
  rw [hmissing] at hserves
  exact ⟨hcreatable, hfits, answers, t', hruns, hserves⟩

end TemplateStore

end VerilogScaffold
