import VerilogScaffold.Proofs.RootedTree
import VerilogScaffold.Proofs.Turn

/-!
# Deliveries one after the other

Deliveries may go to files and to standard output in any order, and several of them to one file.
What a file holds in the end is what the deliveries to it that succeeded make of what it held at the
start, one after the other; no other delivery matters to it (`Delivery.run_deliveries`).

One delivery does so to one file (`Call.effect_run`): the directories that are made for it hold no
new file, and the path it is written at names one place, wherever it leads. For a sequence of
deliveries this adds up.
-/

namespace VerilogScaffold

open Machine

namespace Delivery

/-- What the content of a file becomes by a delivery to it. -/
def revised (adding : Bool) (text : String) : Option ByteArray → ByteArray
  | some old => if adding then old ++ "\n\n".toUTF8 ++ text.toUTF8 else text.toUTF8
  | none => text.toUTF8

/-- What is asked of a delivery. -/
structure Call where
  text : String
  source : Path
  mode : OutputMode
  target : OutputTarget

/-- What comes of a delivery. -/
abbrev Answer := Except DeliveryError (Option Path)

namespace Call

/-- A delivery on a machine. -/
def run (c : Call) : StateM Machine Answer := deliver c.text c.source c.mode c.target

/-- The file that a delivery is to go to, if it is to go to one. -/
def path? (c : Call) :
    Option Path := if c.mode = .stdout then none else some (c.target.resolve c.source)

/-- The place of that file. -/
def place? (cwd : List String) (c : Call) :
    Option (List String) := c.path?.map (FileTree.placeOf cwd)

/-- What the content of that file becomes. -/
def revised (c : Call) : Option ByteArray → ByteArray := Delivery.revised (c.mode == .append) c.text

/-- What a delivery puts on standard output. -/
def printed (c : Call) : String := if c.mode = .stdout then ended c.text else ""

/-- The content of a place after a delivery with an answer. -/
def after (c : Call) (cwd names : List String) (old : Option ByteArray) (answer : Answer) :
    Option ByteArray :=
  if answer.isOk = true ∧ c.place? cwd = some names then some (c.revised old) else old

end Call

/-- The deliveries to a place that succeeded. -/
def effective (cwd names : List String) (calls : List Call) (answers : List Answer) : List Call :=
  ((calls.zip answers).filter fun done => done.2.isOk && done.1.place? cwd ==
    some names).map Prod.fst

variable {cwd : List String} {t t' : FileTree} {path : Path} {text : String} {adding : Bool}

/-! ## One delivery -/

/-- The one operation on a file that a delivery does, once the directories are there. -/
def written (path : Path) (text : String) (adding : Bool) (t : FileTree) (cwd : List String) :
    Except FileError FileTree :=
  if adding && (t.node cwd path).toOption.isSome then
    t.appendBytes cwd path (separator ++ text).toUTF8
  else t.writeBytes cwd path text.toUTF8

/-- A delivery makes directories, and then it fails or has written to its file. -/
theorem exists_perform_write (path : Path) (text : String) (adding : Bool) (cwd : List String)
    (t : FileTree) :
    ∃ made, MakesDirectories cwd t made ∧
      ((∃ e, perform (write path text adding) cwd t = (.error e, made)) ∨
        ∃ t', perform (write path text adding) cwd t = (.ok (), t') ∧
          written path text adding made cwd = .ok t') := by
  have hprepare := onlyMakesDirectories_prepare path
  have hmakes := hprepare.makes cwd t
  rw [write, hprepare.onFiles.perform_bind]
  generalize perform (prepare path) cwd t = prepared at hmakes
  rcases prepared with ⟨e | _, made⟩
  · exact ⟨made, hmakes, .inl ⟨e, rfl⟩⟩
  · refine ⟨made, hmakes, ?_⟩
    have hpresent : OnFiles (Files.isPresent path) := .bind (.ask _) fun _ => .pure _
    have hfound : perform (Files.isPresent path) cwd made =
        (((made.node cwd path).toOption.map (·.2.kind)).isSome, made) := rfl
    dsimp only
    rw [hpresent.perform_bind, hfound, Option.isSome_map, written]
    dsimp only
    split
    · exact OnFiles.perform_change_bind (fun t cwd =>
        t.appendBytes cwd path (separator ++ text).toUTF8)
        (DeliveryError.file path) rfl (fun _ => rfl) made cwd
    · exact OnFiles.perform_change_bind (fun t cwd => t.writeBytes cwd path text.toUTF8)
        (DeliveryError.file path) rfl (fun _ => rfl) made cwd

/-- The operation changes the file that its path names, and no other. -/
theorem content?_of_written (hrooted : t.IsRooted) (h : written path text adding t cwd = .ok t') :
    t'.IsRooted ∧ ∀ names, t'.content? names =
      if names = FileTree.placeOf cwd path then some (revised adding text (t.content? names))
      else t.content? names := by
  rw [written] at h
  split at h
  · next hadding =>
    obtain ⟨content, hcontent, hnot, rfl⟩ := FileTree.exists_of_appendBytes h
    refine ⟨hrooted.step (.append _ _ h), fun names => ?_⟩
    rw [FileTree.content?_put_file hnot]
    by_cases hplace : names = FileTree.placeOf cwd path
    · rw [if_pos hplace, if_pos hplace, hplace, hcontent, revised,
        if_pos (Bool.and_elim_left hadding), ByteArray.append_assoc]
      rfl
    · rw [if_neg hplace, if_neg hplace]
  · next hnot =>
    obtain ⟨hfile, rfl⟩ := FileTree.eq_put_of_writeBytes h
    refine ⟨hrooted.step (.write _ _ h), fun names => ?_⟩
    rw [FileTree.content?_put_file hfile]
    by_cases hplace : names = FileTree.placeOf cwd path
    · rw [if_pos hplace, if_pos hplace, hplace]
      rcases hnode : t.node cwd path with e | found
      · rw [hrooted.content?_of_writeBytes h hnode, revised]
      · have hadding : adding = false := by simpa [hnode, Except.toOption] using hnot
        rw [hadding]
        rcases t.content? (FileTree.placeOf cwd path) with _ | content
        · rfl
        · rfl
    · rw [if_neg hplace, if_neg hplace]

/-- What one delivery does to a machine. -/
structure Call.Effect (c : Call) (answer : Answer) (s s' : Machine) : Prop where
  rooted : s'.files.IsRooted
  cwd_eq : s'.cwd = s.cwd
  out_eq : s'.out = s.out ++ c.printed
  err_eq : s'.err = s.err
  path_eq : ∀ path?, answer = .ok path? → path? = c.path?
  content : ∀ names, s'.files.content? names = c.after s.cwd names (s.files.content? names) answer

/-- A delivery has its effect, whether it succeeds or fails. -/
theorem Call.effect_run (c : Call) (s : Machine) (hrooted : s.files.IsRooted) :
    c.Effect (c.run.run s).1 s (c.run.run s).2 := by
  obtain ⟨t, cwd, out, err⟩ := s
  obtain ⟨text, source, mode, target⟩ := c
  by_cases hmode : mode = .stdout
  · subst hmode
    refine ⟨hrooted, rfl, rfl, rfl, fun path? h => (Except.ok.inj h).symm, fun names => ?_⟩
    rw [Call.after, if_neg fun h => nomatch h.2]
    rfl
  · have hpath : (Call.mk text source mode target).path? = some (target.resolve source) :=
      if_neg hmode
    have hprinted : (Call.mk text source mode target).printed = "" := if_neg hmode
    have hplace : (Call.mk text source mode target).place? cwd =
        some (FileTree.placeOf cwd (target.resolve source)) := by rw [Call.place?, hpath]; rfl
    rw [Call.run, run_deliver_file hmode]
    obtain ⟨made, hmakes, ⟨e, hwrite⟩ | ⟨t', hwrite, hwritten⟩⟩ :=
      exists_perform_write (target.resolve source) text (mode == .append) cwd t
    · rw [hwrite]
      refine ⟨hrooted.makesDirectories hmakes, rfl, ?_, rfl, fun path? h => (nomatch h),
        fun names => ?_⟩
      · rw [hprinted, String.append_empty]
      · rw [Call.after, if_neg fun h => nomatch h.1]
        exact hmakes.sameFiles.content?_eq names
    · rw [hwrite]
      obtain ⟨hrooted', hcontent⟩ := content?_of_written (hrooted.makesDirectories hmakes) hwritten
      refine ⟨hrooted', rfl, ?_, rfl, fun path? h => ?_, fun names => ?_⟩
      · rw [hprinted, String.append_empty]
      · rw [hpath]
        exact (Except.ok.inj h).symm
      · rw [Call.after, hplace]
        show t'.content? names = _
        rw [hcontent, hmakes.sameFiles.content?_eq]
        by_cases hnames : names = FileTree.placeOf cwd (target.resolve source)
        · rw [if_pos hnames, if_pos ⟨rfl, by rw [hnames]⟩]
          rfl
        · rw [if_neg hnames, if_neg fun h => hnames (Option.some.inj h.2).symm]

/-! ## Many deliveries -/

/-- Deliveries, one after the other. -/
def runAll (calls : List Call) : StateM Machine (List Answer) := calls.mapM Call.run

theorem run_runAll_cons (c : Call) (calls : List Call) (s : Machine) :
    (runAll (c :: calls)).run s =
      ((c.run.run s).1 :: ((runAll calls).run (c.run.run s).2).1,
        ((runAll calls).run (c.run.run s).2).2) := by
  rw [runAll, List.mapM_cons]
  rfl

/-- A delivery to a place that succeeded comes first among those that did. -/
theorem foldl_effective_cons (cwd names : List String) (c : Call) (calls : List Call)
    (answer : Answer) (answers : List Answer) (old : Option ByteArray) :
    (effective cwd names (c :: calls) (answer :: answers)).foldl
    (fun old c => some (c.revised old)) old =
      (effective cwd names calls answers).foldl (fun old c => some (c.revised old))
        (c.after cwd names old answer) := by
  rw [effective, List.zip_cons_cons, List.filter_cons, Call.after]
  by_cases heffective : answer.isOk = true ∧ c.place? cwd = some names
  · rw [if_pos (by simpa using heffective), if_pos heffective]
    rfl
  · rw [if_neg (by simpa using heffective), if_neg heffective]
    rfl

/-- What many deliveries do to a machine. -/
structure Effects (calls : List Call) (answers : List Answer) (s s' : Machine) : Prop where
  rooted : s'.files.IsRooted
  cwd_eq : s'.cwd = s.cwd
  out_eq : s'.out = s.out ++ String.join (calls.map Call.printed)
  err_eq : s'.err = s.err
  answers_eq :
    List.Forall₂ (fun c answer => ∀ path?, answer = .ok path? → path? = c.path?) calls answers
  content : ∀ names, s'.files.content? names =
    (effective s.cwd names calls answers).foldl (fun old c => some (c.revised old))
      (s.files.content? names)

theorem effects_runAll (calls : List Call) (s : Machine) (hrooted : s.files.IsRooted) :
    Effects calls ((runAll calls).run s).1 s ((runAll calls).run s).2 := by
  induction calls generalizing s with
  | nil =>
    exact ⟨hrooted, rfl, by rw [List.map_nil, String.join_nil, String.append_empty]; rfl, rfl, .nil,
      fun _ => rfl⟩
  | cons c calls ih =>
    have hfirst := c.effect_run s hrooted
    have hrest := ih (c.run.run s).2 hfirst.rooted
    rw [run_runAll_cons]
    refine ⟨hrest.rooted, hrest.cwd_eq.trans hfirst.cwd_eq, ?_, hrest.err_eq.trans hfirst.err_eq,
      .cons hfirst.path_eq hrest.answers_eq, fun names => ?_⟩
    · rw [hrest.out_eq, hfirst.out_eq, List.map_cons, String.join_cons, String.append_assoc]
    · rw [hrest.content, hfirst.content, hfirst.cwd_eq, foldl_effective_cons]

theorem join_printed (calls : List Call) : String.join (calls.map Call.printed) =
    String.join ((calls.filter (·.mode = .stdout)).map fun c => ended c.text) := by
  induction calls with
  | nil => rfl
  | cons c calls ih =>
    rw [List.map_cons, String.join_cons, ih, List.filter_cons, Call.printed]
    by_cases hmode : c.mode = .stdout
    · rw [if_pos hmode, if_pos (by simpa using hmode), List.map_cons, String.join_cons]
    · rw [if_neg hmode, if_neg (by simpa using hmode), String.empty_append]

/-- A delivery that fails prints nothing and leaves every file as it is. -/
theorem Call.sameFiles_of_error (c : Call) {s s' : Machine} {e : DeliveryError}
    (h : c.run.run s = (.error e, s')) :
    SameFiles s.files s'.files ∧ s'.out = s.out ∧ s'.err = s.err := by
  obtain ⟨t, cwd, out, err⟩ := s
  by_cases hmode : c.mode = .stdout
  · rw [Call.run, hmode, run_deliver_stdout] at h
    cases congrArg Prod.fst h
  · rw [Call.run, run_deliver_file hmode] at h
    obtain ⟨hanswer, rfl⟩ := Prod.mk.inj h
    refine ⟨?_, rfl, rfl⟩
    rcases hwrite : perform (write (c.target.resolve c.source) c.text (c.mode == .append)) cwd
      t with ⟨cause | _, t'⟩
    · exact Delivery.sameFiles_of_error hwrite
    · rw [hwrite] at hanswer
      cases hanswer

/-- **Deliveries add up file by file.** After deliveries one after the other, a file holds what
those that succeeded in writing to it have made of what it held before, in their order, and a file
that none of them was to go to is as it was. The texts for standard output stand there in order,
each with a newline at its end. A delivery that fails does not matter to any file, and prints
nothing. -/
theorem run_deliveries (calls : List Call) (s : Machine) (hrooted : s.files.IsRooted) :
    ∃ answers s', (runAll calls).run s = (answers, s') ∧
      List.Forall₂ (fun c answer => ∀ path?, answer = .ok path? → path? = c.path?) calls answers ∧
      (∀ names, s'.files.content? names =
        (effective s.cwd names calls answers).foldl (fun old c => some (c.revised old))
          (s.files.content? names)) ∧
      (∀ names, (∀ c ∈ calls, c.place? s.cwd ≠ some names) →
        s'.files.content? names = s.files.content? names) ∧
      s'.out = s.out ++ String.join ((calls.filter (·.mode = .stdout)).map fun c => ended c.text) ∧
      s'.err = s.err ∧ s'.cwd = s.cwd ∧ s'.files.IsRooted ∧
      ∀ (c : Call) (before after : Machine) (e : DeliveryError),
      c.run.run before = (.error e, after) →
        SameFiles before.files after.files ∧ after.out = before.out ∧ after.err = before.err := by
  have heffects := effects_runAll calls s hrooted
  refine ⟨((runAll calls).run s).1, ((runAll calls).run s).2, rfl, heffects.answers_eq,
    heffects.content, fun names hother => ?_, ?_, heffects.err_eq, heffects.cwd_eq, heffects.rooted,
    fun c before after e => c.sameFiles_of_error⟩
  · have hnone : effective s.cwd names calls ((runAll calls).run s).1 = [] := by
      rw [effective, List.map_eq_nil_iff, List.filter_eq_nil_iff]
      intro done hdone heffective
      have hplace : done.1.place? s.cwd = some names := by
        simpa using (Bool.and_elim_right heffective)
      exact hother done.1 (List.of_mem_zip hdone).1 hplace
    rw [heffects.content, hnone, List.foldl_nil]
  · rw [heffects.out_eq, join_printed]

/-- Two ways to one file, a path that is no way at all, and a text for standard output. -/
def sampleCalls : List Call :=
  [⟨"one", ⟨"a"⟩, .overwrite, ⟨"o", "x"⟩⟩, ⟨"no", ⟨"a"⟩, .overwrite, ⟨"", ""⟩⟩,
    ⟨"two", ⟨"o/x"⟩, .append, ⟨".", "$\x7bbaseName\x7d"⟩⟩, ⟨"u ();", ⟨"a"⟩, .stdout, ⟨"o", "x"⟩⟩]

theorem run_deliveries_sampleCalls : FileTree.empty.IsRooted ∧
    ∃ answers s', (runAll sampleCalls).run ⟨.empty, [], "", ""⟩ = (answers, s') ∧
      answers = [.ok (some ⟨"o/x"⟩), .error (.file ⟨""⟩ .notFound),
        .ok (some ⟨"o/./x"⟩), .ok none] ∧
      s'.files.content? ["o", "x"] = some "one\n\ntwo".toUTF8 ∧ s'.out = "u ();\n" := by
  obtain ⟨answers, s', hrun, -, hcontent, -, hout, -⟩ :=
    run_deliveries sampleCalls ⟨.empty, [], "", ""⟩ .empty
  have hanswers : ((runAll sampleCalls).run ⟨.empty, [], "", ""⟩).1 =
      [.ok (some ⟨"o/x"⟩), .error (.file ⟨""⟩ .notFound), .ok (some ⟨"o/./x"⟩), .ok none] := by
    cbv
  rw [hrun] at hanswers
  refine ⟨.empty, answers, s', hrun, hanswers, ?_, ?_⟩
  · rw [hcontent, show answers = _ from hanswers]
    rfl
  · rw [hout]
    rfl

end Delivery

end VerilogScaffold
