import VerilogScaffold.Proofs.Machine

/-!
# Walks through a tree

A walk looks at the places it goes through and at the one it leads to (`FileTree.trailOf`), and at
no others: trees that are alike at those places take it to the same place (`FileTree.node_congr`).

Making directories puts directories where nothing was, so it keeps every file as it is
(`SameFiles`).
-/

namespace VerilogScaffold

namespace FileTree

variable {t t' : FileTree} {cwd here names steps : List String} {path : Path}

/-! ## Where a walk looks -/

/-- The places that following names from a directory looks at. -/
def trail (t : FileTree) (here : List String) : List String → List (List String)
  | [] => [here]
  | name :: rest =>
    here :: match t.find? here with
      | some .directory =>
        if name = "." then trail t here rest
        else if name = ".." then trail t here.dropLast rest
        else if nameLimit < name.utf8ByteSize then []
        else trail t (here ++ [name]) rest
      | _ => []

/-- The places that are looked at to find out where a path leads. -/
def trailOf (t : FileTree) (cwd : List String) (path : Path) : List (List String) :=
  match route cwd path with
  | .ok (here, steps) => t.trail here steps
  | .error _ => []

theorem mem_trail (t : FileTree) (here steps : List String) : here ∈ t.trail here steps := by
  cases steps <;> exact List.mem_cons_self ..

/-- A walk goes the same way in a tree that is alike where it looks, and finds the same where it
ends. -/
theorem walk_congr (h : ∀ names ∈ t.trail here steps, t'.find? names = t.find? names) :
    t'.walk here steps = t.walk here steps ∧
      ∀ names, t.walk here steps = .ok names → t'.find? names = t.find? names := by
  have hhere := h here (mem_trail t here steps)
  fun_induction walk t here steps with
  | case1 here =>
    refine ⟨by rw [walk], fun names hnames => ?_⟩
    rw [← Except.ok.inj hnames]
    exact hhere
  | case2 here name rest hnone =>
    rw [hnone] at hhere
    exact ⟨by rw [walk, hhere], fun _ hnames => nomatch hnames⟩
  | case3 here name rest content hfile =>
    rw [hfile] at hhere
    exact ⟨by rw [walk, hhere], fun _ hnames => nomatch hnames⟩
  | case4 here rest hdir ih =>
    rw [hdir] at hhere
    simp only [trail, hdir, if_true, List.forall_mem_cons] at h
    rw [walk, hhere]
    exact ih h.2 (h.2 _ (mem_trail t here rest))
  | case5 here rest hdir hdot ih =>
    rw [hdir] at hhere
    simp only [trail, hdir, hdot, if_true, if_false, List.forall_mem_cons] at h
    rw [walk, hhere]
    exact ih h.2 (h.2 _ (mem_trail t here.dropLast rest))
  | case6 here name rest hdir hdot hup hlong =>
    rw [hdir] at hhere
    simp only [walk, hhere, hdot, hup, hlong, if_true, if_false]
    exact ⟨trivial, fun _ hnames => nomatch hnames⟩
  | case7 here name rest hdir hdot hup hlong ih =>
    rw [hdir] at hhere
    simp only [trail, hdir, hdot, hup, hlong, if_false, List.forall_mem_cons] at h
    simp only [walk, hhere, hdot, hup, hlong, if_false]
    exact ih h.2 (h.2 _ (mem_trail t (here ++ [name]) rest))

/-- A path leads to where the walk along it ends, and to what is there. -/
theorem locate_of_route (h : route cwd path = .ok (here, steps)) :
    t.locate cwd path = (t.walk here steps).map fun names =>
      ⟨names, t.find? names, endsInSeparator path⟩ := by
  rw [locate, h]
  show (t.walk here steps >>= fun names =>
    pure (Place.mk names (t.find? names) (endsInSeparator path))) = _
  cases t.walk here steps <;> rfl

theorem locate_of_route_error {e : FileError} (h : route cwd path = .error e) :
    t.locate cwd path = .error e := by
  rw [locate, h]
  rfl

/-- A path leads to the same in a tree that is alike where the walk along it looks. -/
theorem node_congr (h : ∀ names ∈ t.trailOf cwd path, t'.find? names = t.find? names) :
    t'.node cwd path = t.node cwd path := by
  have hlocate : t'.locate cwd path = t.locate cwd path := by
    rcases hroute : route cwd path with e | ⟨here, steps⟩
    · rw [locate_of_route_error hroute, locate_of_route_error hroute]
    · rw [trailOf, hroute] at h
      obtain ⟨hwalk, hend⟩ := walk_congr h
      rw [locate_of_route hroute, locate_of_route hroute, hwalk]
      rcases hnames : t.walk here steps with e | names
      · rfl
      · simp only [Except.map, hend names hnames]
  rw [node, node, hlocate]

/-! ## What operations do to a tree -/

theorem node?_of_locate {place : Place} (h : t.locate cwd path = .ok place) :
    place.node? = t.find? place.names := by
  rcases hroute : route cwd path with e | ⟨here, steps⟩
  · rw [locate_of_route_error hroute] at h
    cases h
  · rw [locate_of_route hroute] at h
    rcases hwalk : t.walk here steps with e | names
    · rw [hwalk] at h
      cases h
    · rw [hwalk] at h
      obtain rfl := Except.ok.inj h
      rfl

/-- A directory is made where nothing was. -/
theorem exists_of_makeDirectory (h : t.makeDirectory cwd path = .ok t') :
    ∃ names, t.find? names = none ∧ t' = t.put names .directory := by
  rw [makeDirectory] at h
  rcases hplace : t.locate cwd path with e | place
  · rw [hplace] at h
    cases h
  · rw [hplace] at h
    change (if place.node?.isSome then Except.error FileError.alreadyExists
      else Except.ok _) = _ at h
    split at h
    · cases h
    · rename_i hnone
      rw [node?_of_locate hplace, Bool.not_eq_true, Option.isSome_eq_false_iff,
        Option.isNone_iff_eq_none] at hnone
      exact ⟨place.names, hnone, (Except.ok.inj h).symm⟩

end FileTree

/-! ## Trees with the same files -/

/-- Whether two trees hold the same files; they may differ in directories. -/
def SameFiles (t t' : FileTree) : Prop :=
  ∀ names content, t'.find? names = some (.file content) ↔ t.find? names = some (.file content)

namespace SameFiles

open FileTree Machine

variable {t t' t'' : FileTree}

protected theorem refl (t : FileTree) : SameFiles t t := fun _ _ => Iff.rfl

protected theorem trans (h : SameFiles t t') (h' : SameFiles t' t'') : SameFiles t t'' :=
  fun names content => (h' names content).trans (h names content)

theorem put_directory {names : List String} (h : t.find? names = none) :
    SameFiles t (t.put names .directory) := by
  have hne : names ≠ [] := by
    rintro rfl
    cases h
  intro other content
  rw [find?_put t hne]
  split
  · subst other
    simp [h]
  · exact Iff.rfl

end SameFiles

/-! ## Programs that make directories -/

/-- Whether one tree comes of another by making directories, one after the other. -/
inductive MakesDirectories (cwd : List String) : FileTree → FileTree → Prop
  | refl (t : FileTree) : MakesDirectories cwd t t
  | make {t t' t'' : FileTree} {path : Path} (made : t.makeDirectory cwd path = .ok t')
      (rest : MakesDirectories cwd t' t'') : MakesDirectories cwd t t''

namespace MakesDirectories

variable {cwd : List String} {t t' t'' : FileTree}

protected theorem trans (h : MakesDirectories cwd t t') (h' : MakesDirectories cwd t' t'') :
    MakesDirectories cwd t t'' := by
  induction h with
  | refl => exact h'
  | make made _ ih => exact .make made (ih h')

theorem sameFiles (h : MakesDirectories cwd t t') : SameFiles t t' := by
  induction h with
  | refl t => exact .refl t
  | make made _ ih =>
    obtain ⟨names, hnone, rfl⟩ := FileTree.exists_of_makeDirectory made
    exact (SameFiles.put_directory hnone).trans ih

end MakesDirectories

/-- Whether a program does nothing but ask files and make directories. -/
structure OnlyMakesDirectories {α : Type} (x : StateM Machine α) : Prop where
  onFiles : OnFiles x
  makes : ∀ cwd t, MakesDirectories cwd t (Machine.perform x cwd t).2

namespace OnlyMakesDirectories

open Machine

variable {α β : Type} {x : StateM Machine α} {f : α → StateM Machine β}

protected theorem pure (a : α) : OnlyMakesDirectories (pure a : StateM Machine α) :=
  ⟨.pure a, fun _ t => .refl t⟩

protected theorem ask (f : FileTree → List String → α) : OnlyMakesDirectories (Machine.ask f) :=
  ⟨.ask f, fun _ t => .refl t⟩

protected theorem bind (hx : OnlyMakesDirectories x) (hf : ∀ a, OnlyMakesDirectories (f a)) :
    OnlyMakesDirectories (x >>= f) where
  onFiles := hx.onFiles.bind fun a => (hf a).onFiles
  makes cwd t := by
    rw [hx.onFiles.perform_bind]
    exact (hx.makes cwd t).trans ((hf _).makes cwd _)

theorem makeDirectory (path : Path) :
    OnlyMakesDirectories (MonadFiles.makeDirectory path : StateM Machine _) where
  onFiles := .change _
  makes cwd t := by
    show MakesDirectories cwd t
      (perform (Machine.change fun t cwd => t.makeDirectory cwd path) cwd t).2
    rw [OnFiles.perform_change]
    rcases h : t.makeDirectory cwd path with e | t'
    · exact .refl t
    · exact .make h (.refl t')

theorem isDirectory (path : Path) :
    OnlyMakesDirectories (Files.isDirectory path : StateM Machine Bool) :=
  .bind (.ask _) fun _ => .pure _

theorem ensureDirectory (path : Path) :
    OnlyMakesDirectories (Files.ensureDirectory path : StateM Machine _) := by
  refine .bind (makeDirectory path) fun made => ?_
  rcases made with e | _
  · refine .bind (isDirectory path) fun found => ?_
    cases found <;> exact .pure _
  · exact .pure _

theorem ensureDirectories (path : Path) :
    OnlyMakesDirectories (Files.ensureDirectories path : StateM Machine _) := by
  induction hlength : path.text.toList.length using Nat.strongRecOn generalizing path with
  | ind n ih =>
    subst hlength
    rw [Files.ensureDirectories]
    split
    · exact .pure _
    · refine .bind (makeDirectory path) fun made => ?_
      split
      · exact .pure _
      · split
        · exact .pure _
        · rename_i parent hparent
          refine .bind (ih _ (Path.length_parent?_lt hparent) parent rfl) fun ensured => ?_
          rcases ensured with e | _
          · exact .pure _
          · exact ensureDirectory path
      · refine .bind (isDirectory path) fun found => ?_
        cases found <;> exact .pure _

end OnlyMakesDirectories

/-! ## Programs that leave files as they are -/

/-- Whether a program leaves every file as it is, and prints nothing. -/
structure KeepsFiles {α : Type} (x : StateM Machine α) : Prop where
  onFiles : OnFiles x
  sameFiles : ∀ cwd t, SameFiles t (Machine.perform x cwd t).2

namespace KeepsFiles

variable {α : Type} {x : StateM Machine α}

theorem of_onlyMakesDirectories (h : OnlyMakesDirectories x) : KeepsFiles x where
  onFiles := h.onFiles
  sameFiles cwd t := (h.makes cwd t).sameFiles

protected theorem pure (a : α) : KeepsFiles (pure a : StateM Machine α) :=
  .of_onlyMakesDirectories (.pure a)

theorem makeDirectory (path : Path) :
    KeepsFiles (MonadFiles.makeDirectory path : StateM Machine _) :=
  .of_onlyMakesDirectories (.makeDirectory path)

theorem isDirectory (path : Path) : KeepsFiles (Files.isDirectory path : StateM Machine Bool) :=
  .of_onlyMakesDirectories (.isDirectory path)

/-- Making the directories of a path keeps every file as it is, also where it fails halfway. -/
theorem ensureDirectories (path : Path) :
    KeepsFiles (Files.ensureDirectories path : StateM Machine _) :=
  .of_onlyMakesDirectories (.ensureDirectories path)

end KeepsFiles

/-- Whether a program prints nothing, and leaves every file as it is where it fails. -/
structure SparesFiles {α ε : Type} (x : StateM Machine (Except ε α)) : Prop where
  onFiles : OnFiles x
  sameFiles : ∀ cwd t e t', Machine.perform x cwd t = (.error e, t') → SameFiles t t'

namespace SparesFiles

open Machine

variable {α β ε : Type}

theorem of_keepsFiles {x : StateM Machine (Except ε α)} (h : KeepsFiles x) : SparesFiles x where
  onFiles := h.onFiles
  sameFiles cwd t e t' he := by
    have := h.sameFiles cwd t
    rwa [he] at this

theorem after {x : StateM Machine α} {f : α → StateM Machine (Except ε β)} (hx : KeepsFiles x)
    (hf : ∀ a, SparesFiles (f a)) : SparesFiles (x >>= f) where
  onFiles := hx.onFiles.bind fun a => (hf a).onFiles
  sameFiles cwd t e t' he := by
    rw [hx.onFiles.perform_bind] at he
    exact (hx.sameFiles cwd t).trans ((hf _).sameFiles cwd _ e t' he)

/-- One operation on a file, and what is said of it. -/
theorem change (f : FileTree → List String → Except FileError FileTree)
    {say : Except FileError Unit → StateM Machine (Except ε Unit)} (onError : FileError → ε)
    (hok : say (.ok ()) = pure (.ok ()))
    (herror : ∀ e, say (.error e) = pure (.error (onError e))) :
    SparesFiles (Machine.change f >>= say) where
  onFiles := by
    refine (OnFiles.change f).bind fun done => ?_
    rcases done with e | _
    · rw [herror]
      exact .pure _
    · rw [hok]
      exact .pure _
  sameFiles cwd t e t' he := by
    rcases OnFiles.perform_change_bind f onError hok herror t cwd with ⟨cause, h⟩ | ⟨changed, h, -⟩
    · obtain rfl : t = t' := congrArg Prod.snd (h.symm.trans he)
      exact .refl t
    · cases congrArg Prod.fst (h.symm.trans he)

end SparesFiles

end VerilogScaffold
