import VerilogScaffold.Files.Tree

/-!
# Programs on machines

What a program does on a machine is told by two relations. `Answers` is about programs that only
ask: it names the paths that are looked up, so a program gives the same answer on all files that are
alike there. `OnFiles` is about programs that may change files but print nothing: what they do is a
function of the files and of the working directory (`Machine.perform`).

Both are kept by `bind`, so they are shown of a program along its own text.
-/

namespace VerilogScaffold

variable {α β : Type} {cwd : List String} {t : FileTree}

theorem run_bind_of {x : StateM Machine α} {s s' : Machine} {a : α} (h : x.run s = (a, s'))
    (f : α → StateM Machine β) :
    (x >>= f).run s = (f a).run s' := by
  rw [StateT.run_bind, h]
  rfl

theorem run_map_of {x : StateM Machine α} {s s' : Machine} {a : α}
    (h : x.run s = (a, s')) (f : α → β) :
    (f <$> x).run s = (f a, s') := by
  rw [StateT.run_map, h]
  rfl

/-- The answer of a program, and the files it leaves. -/
def Machine.perform (x : StateM Machine α) (cwd : List String) (t : FileTree) : α × FileTree :=
  ((x.run ⟨t, cwd, "", ""⟩).1, (x.run ⟨t, cwd, "", ""⟩).2.files)

/-! ## Programs that only ask -/

/-- Whether a program answers `a`, changes nothing, and does so on all files on which `paths` lead
to the same. -/
def Answers (x : StateM Machine α) (cwd : List String) (t : FileTree) (paths : List Path)
    (a : α) : Prop :=
  ∀ t' out err, (∀ p ∈ paths, t'.node cwd p = t.node cwd p) →
    x.run ⟨t', cwd, out, err⟩ = (a, ⟨t', cwd, out, err⟩)

namespace Answers

variable {x : StateM Machine α} {f : α → StateM Machine β} {a : α} {b : β} {ps qs : List Path}

protected theorem pure (a : α) (ps : List Path) : Answers (pure a) cwd t ps a := fun _ _ _ _ => rfl

protected theorem bind (hx : Answers x cwd t ps a) (hf : Answers (f a) cwd t ps b) :
    Answers (x >>= f) cwd t ps b := by
  intro t' out err h
  rw [run_bind_of (hx t' out err h)]
  exact hf t' out err h

theorem mono (h : Answers x cwd t ps a) (hps : ps ⊆ qs) : Answers x cwd t qs a :=
  fun t' out err hagree => h t' out err fun p hp => hagree p (hps hp)

protected theorem run (h : Answers x cwd t ps a) (out err : String) :
    x.run ⟨t, cwd, out, err⟩ = (a, ⟨t, cwd, out, err⟩) := h t out err fun _ _ => rfl

theorem exists_bind (hx : Answers x cwd t ps a) (hf : ∃ b, Answers (f a) cwd t ps b) :
    ∃ b, Answers (x >>= f) cwd t ps b :=
  hf.imp fun _ h => hx.bind h

/-- The same answer on other files. -/
theorem congr {t' : FileTree} (h : Answers x cwd t ps a)
    (ht : ∀ p ∈ ps, t'.node cwd p = t.node cwd p) :
    Answers x cwd t' ps a :=
  fun t'' out err hagree => h t'' out err fun p hp => (hagree p hp).trans (ht p hp)

end Answers

/-- The text of a file. -/
def FileTree.readText (t : FileTree) (cwd : List String) (path : Path) : Except FileError String :=
  match t.readBytes cwd path with
  | .error e => .error e
  | .ok bytes =>
    match String.fromUTF8? bytes with
    | some text => .ok text
    | none => .error .invalidText

theorem FileTree.readText_of_readBytes {path : Path} {text : String}
    (h : t.readBytes cwd path = .ok text.toUTF8) :
    t.readText cwd path = .ok text := by
  have hdecode : String.fromUTF8? text.toUTF8 = some text := by
    rw [String.fromUTF8?, dif_pos (show text.toUTF8.IsValidUTF8 from text.isValidUTF8)]
    rfl
  rw [FileTree.readText, h]
  dsimp only
  rw [hdecode]

/-- Whether a path leads to a file. -/
def FileTree.isFile (t : FileTree) (cwd : List String) (path : Path) : Bool :=
  (t.node cwd path).toOption.map (·.2.kind) == some .file

theorem answers_readText (cwd : List String) (t : FileTree) (path : Path) :
    Answers (Files.readText path) cwd t [path] (t.readText cwd path) := by
  have hread : Answers (MonadFiles.readBytes path) cwd t [path] (t.readBytes cwd path) := by
    intro t' out err h
    rw [FileTree.readBytes, ← h path (List.mem_singleton_self path)]
    rfl
  refine hread.bind ?_
  rw [FileTree.readText]
  rcases t.readBytes cwd path with e | bytes
  · exact .pure _ _
  · dsimp only
    rcases String.fromUTF8? bytes with _ | text <;> exact .pure _ _

theorem answers_isFile (cwd : List String) (t : FileTree) (path : Path) :
    Answers (Files.isFile path) cwd t [path] (t.isFile cwd path) := by
  intro t' out err h
  rw [FileTree.isFile, ← h path (List.mem_singleton_self path)]
  rfl

theorem answers_workingDirectory (cwd : List String) (t : FileTree) :
    Answers MonadFiles.workingDirectory cwd t [] ⟨"/" ++ "/".intercalate cwd⟩ := fun _ _ _ _ => rfl

theorem Answers.perform_fst {x : StateM Machine α} {ps : List Path} {a : α}
    (h : Answers x cwd t ps a) :
    (Machine.perform x cwd t).1 = a := congrArg Prod.fst (h.run "" "")

/-! ## Programs that change files -/

open Machine

/-- Whether a program does nothing but ask files and change them. -/
def OnFiles (x : StateM Machine α) : Prop :=
  ∀ t cwd out err, x.run ⟨t, cwd, out, err⟩ =
    ((perform x cwd t).1, ⟨(perform x cwd t).2, cwd, out, err⟩)

namespace OnFiles

variable {x : StateM Machine α} {f : α → StateM Machine β}

protected theorem pure (a : α) : OnFiles (pure a : StateM Machine α) := fun _ _ _ _ => rfl

protected theorem ask (f : FileTree → List String → α) :
    OnFiles (Machine.ask f) := fun _ _ _ _ => rfl

theorem run_change (f : FileTree → List String → Except FileError FileTree) (t : FileTree)
    (cwd : List String) (out err : String) :
    (Machine.change f).run ⟨t, cwd, out, err⟩ =
      match f t cwd with
      | .error e => (.error e, ⟨t, cwd, out, err⟩)
      | .ok t' => (.ok (), ⟨t', cwd, out, err⟩) := by
  rcases h : f t cwd with e | t' <;> simp [Machine.change, h] <;> rfl

section Change

variable {f : FileTree → List String → Except FileError FileTree} {t t' : FileTree}
  {cwd : List String} {out err : String}

theorem run_change_error {e : FileError} (h : f t cwd = .error e) :
    (Machine.change f).run ⟨t, cwd, out, err⟩ = (.error e, ⟨t, cwd, out, err⟩) := by
  rw [run_change, h]

theorem run_change_ok (h : f t cwd = .ok t') :
    (Machine.change f).run ⟨t, cwd, out, err⟩ = (.ok (), ⟨t', cwd, out, err⟩) := by
  rw [run_change, h]

end Change

theorem perform_change (f : FileTree → List String → Except FileError FileTree) (cwd : List String)
    (t : FileTree) :
    perform (Machine.change f) cwd t =
      match f t cwd with
      | .error e => (.error e, t)
      | .ok t' => (.ok (), t') := by
  rw [perform, run_change]
  rcases f t cwd with e | t' <;> rfl

protected theorem change (f : FileTree → List String → Except FileError FileTree) :
    OnFiles (Machine.change f) := by
  intro t cwd out err
  rw [perform, run_change, run_change]
  rcases f t cwd with e | t' <;> rfl

theorem perform_bind (hx : OnFiles x) (f : α → StateM Machine β) (cwd : List String)
    (t : FileTree) :
    perform (x >>= f) cwd t = perform (f (perform x cwd t).1) cwd (perform x cwd t).2 := by
  rw [perform, run_bind_of (hx t cwd "" "")]
  rfl

protected theorem bind (hx : OnFiles x) (hf : ∀ a, OnFiles (f a)) : OnFiles (x >>= f) := by
  intro t cwd out err
  rw [run_bind_of (hx t cwd out err), hx.perform_bind]
  exact hf _ _ _ _ _

/-- One operation on a file fails or succeeds, and so does what is said of it. -/
theorem perform_change_bind {ε : Type} (f : FileTree → List String → Except FileError FileTree)
    {say : Except FileError Unit → StateM Machine (Except ε Unit)} (onError : FileError → ε)
    (hok : say (.ok ()) = pure (.ok ())) (herror : ∀ e, say (.error e) = pure (.error (onError e)))
    (t : FileTree) (cwd : List String) :
    (∃ e, perform (Machine.change f >>= say) cwd t = (.error e, t)) ∨
      ∃ t', perform (Machine.change f >>= say) cwd t = (.ok (), t') ∧ f t cwd = .ok t' := by
  rw [(OnFiles.change f).perform_bind, OnFiles.perform_change]
  rcases f t cwd with e | t'
  · refine .inl ⟨onError e, ?_⟩
    dsimp only
    rw [herror]
    rfl
  · refine .inr ⟨t', ?_, rfl⟩
    dsimp only
    rw [hok]
    rfl

end OnFiles

end VerilogScaffold
