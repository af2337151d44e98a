import VerilogScaffold.Proofs.HeaderExtraction
import VerilogScaffold.Proofs.Turn

/-!
# Batches are made of single runs

An invocation asks for one kind of text from some sources. What it reads before it delivers anything
is a configuration, a template and the sources (`Invocation.Undisturbed`), so a batch does what its
parts do in runs of their own, as long as the first leave alone what the others read
(`Invocation.exec_append`).

A source that fails does not stop the others. It is not true that it never keeps another from being
delivered: a delivery that fails may have made directories, and one of these may stand where another
file is to be written (`Invocation.exec_colliding`).
-/

namespace VerilogScaffold

open Machine

variable {cwd : List String} {t t' : FileTree} {plan : BatchPlan}

/-! ## Invocations -/

/-- A request to generate, but for its sources. -/
structure Invocation where
  onTerminal : Bool
  preferences : Preferences
  kind : ScaffoldKind
  template? : Option Path
  mode? : Option OutputMode

namespace Invocation

/-- Carries out a request on some files: how the program ends, and what it leaves. -/
def exec (inv : Invocation) (cwd : List String) (t : FileTree) (sources : List Path) :
    ExitStatus × Machine :=
  (Program.fulfil inv.onTerminal ⟨inv.preferences,
    .generate inv.kind sources inv.template? inv.mode?⟩ :
    StateM Machine ExitStatus).run ⟨t, cwd, "", ""⟩

/-- Whether the configuration and the template load, and the plan that they give. -/
structure Loads (inv : Invocation) (cwd : List String) (t : FileTree) (w : Workspace)
    (plan : BatchPlan) : Prop where
  workspace : (perform (Workspace.load inv.preferences.config?) cwd t).1 = .ok w
  plan : (perform (BatchPlan.ofWorkspace w inv.kind inv.template? inv.mode?) cwd t).1 = .ok plan

/-- The paths that a search for the first file looks at. -/
def probed (cwd : List String) (t : FileTree) : List Path → List Path
  | [] => []
  | path :: rest => path :: if t.isFile cwd path then [] else probed cwd t rest

/-- The paths of configurations that are looked at. -/
def configPaths (inv : Invocation) (cwd : List String) (t : FileTree) : List Path :=
  match inv.preferences.config? with
  | some path => [path]
  | none => probed cwd t
      ((⟨"/" ++ "/".intercalate cwd⟩ : Path).ancestors.map (·.join ⟨Config.configFileName⟩))

/-- The paths of a store that are looked at to load a template. -/
def selectedPaths (store : TemplateStore) (kind : ScaffoldKind) : Option String → List Path
  | some name => if name = Template.defaultName then [] else [store.pathOf kind name]
  | none => []

/-- The paths of templates that are looked at. -/
def templatePaths (inv : Invocation) (w : Workspace) : List Path :=
  match inv.template? with
  | some path => [path]
  | none => selectedPaths w.store inv.kind (w.config.templates.selected? inv.kind)

/-- Whether nothing that is read, as configuration, template or source, is anywhere else in other
files. -/
def Undisturbed (inv : Invocation) (cwd : List String) (t t' : FileTree) (w : Workspace)
    (sources : List Path) : Prop :=
  ∀ path ∈ inv.configPaths cwd t ++ inv.templatePaths w ++ sources,
    ∀ names ∈ t.trailOf cwd path, t'.find? names = t.find? names

/-! ### What is read -/

theorem answers_firstFile? (cwd : List String) (t : FileTree) (paths : List Path) :
    Answers (Config.firstFile? paths) cwd t (probed cwd t paths) (paths.find? (t.isFile cwd)) := by
  induction paths with
  | nil => exact .pure _ _
  | cons path rest ih =>
    rw [Config.firstFile?, probed, List.find?_cons]
    refine ((answers_isFile cwd t path).mono (by simp)).bind ?_
    rcases t.isFile cwd path with _ | _
    · exact ih.mono (List.subset_cons_self path _)
    · exact .pure _ _

/-- The file that is found is looked at. -/
theorem mem_probed {paths : List Path} {path : Path} (h : paths.find? (t.isFile cwd) = some path) :
    path ∈ probed cwd t paths := by
  induction paths with
  | nil => cases h
  | cons p rest ih =>
    rw [List.find?_cons] at h
    rw [probed]
    split at h
    · rw [Option.some.inj h]
      exact List.mem_cons_self ..
    · rename_i hp
      rw [hp]
      exact List.mem_cons_of_mem p (ih h)

theorem exists_answers_ofFile (cwd : List String) (t : FileTree) (path : Path) :
    ∃ a, Answers (Workspace.ofFile path) cwd t [path] a := by
  have hload : ∃ a, Answers (Config.load path) cwd t [path] a := by
    refine (answers_readText cwd t path).exists_bind ?_
    rcases t.readText cwd path with cause | text
    · exact ⟨_, .pure _ _⟩
    · dsimp only
      split <;> exact ⟨_, .pure _ _⟩
  obtain ⟨a, ha⟩ := hload
  refine ha.exists_bind ?_
  rcases a with cause | config <;> exact ⟨_, .pure _ _⟩

theorem exists_answers_load (inv : Invocation) (cwd : List String) (t : FileTree) :
    ∃ a, Answers (Workspace.load inv.preferences.config?) cwd t (inv.configPaths cwd t) a := by
  rw [configPaths]
  rcases inv.preferences.config? with _ | path
  · rw [Workspace.load]
    refine ((answers_workingDirectory cwd t).mono (List.nil_subset _)).exists_bind ?_
    refine (answers_firstFile? cwd t _).exists_bind ?_
    split
    · rename_i path hfound
      obtain ⟨a, ha⟩ := exists_answers_ofFile cwd t path
      exact ⟨a, ha.mono (by simpa using mem_probed hfound)⟩
    · exact ⟨_, .pure _ _⟩
  · exact exists_answers_ofFile cwd t path

theorem exists_answers_storeLoad (store : TemplateStore) (kind : ScaffoldKind)
    (selected : Option String) (cwd : List String) (t : FileTree) :
    ∃ a, Answers (store.load kind selected) cwd t (selectedPaths store kind selected) a := by
  rcases selected with _ | name
  · exact ⟨_, .pure _ _⟩
  · rw [TemplateStore.load, selectedPaths]
    split
    · exact ⟨_, .pure _ _⟩
    · split
      · exact ⟨_, .pure _ _⟩
      · refine (answers_readText cwd t (store.pathOf kind name)).exists_bind ?_
        rcases t.readText cwd (store.pathOf kind name) with cause | text
        · cases cause <;> exact ⟨_, .pure _ _⟩
        · exact ⟨_, .pure _ _⟩

theorem exists_answers_ofWorkspace (inv : Invocation) (cwd : List String) (t : FileTree)
    (w : Workspace) :
    ∃ a, Answers (BatchPlan.ofWorkspace w inv.kind inv.template? inv.mode?) cwd t
      (inv.templatePaths w) a := by
  have htext : ∃ a, Answers (BatchPlan.templateText w inv.kind inv.template?) cwd t
      (inv.templatePaths w) a := by
    rw [templatePaths]
    rcases inv.template? with _ | path
    · obtain ⟨a, ha⟩ :=
        exists_answers_storeLoad w.store inv.kind (w.config.templates.selected? inv.kind) cwd t
      rw [BatchPlan.templateText]
      refine ha.exists_bind ?_
      rcases a with cause | text <;> exact ⟨_, .pure _ _⟩
    · rw [BatchPlan.templateText]
      refine (answers_readText cwd t path).exists_bind ?_
      rcases t.readText cwd path with cause | text <;> exact ⟨_, .pure _ _⟩
  obtain ⟨a, ha⟩ := htext
  refine ha.exists_bind ?_
  rcases a with cause | text <;> exact ⟨_, .pure _ _⟩

section Loads

variable {inv : Invocation} {w : Workspace}

/-- What an invocation reads is the same on files that are alike where it looks. -/
theorem Loads.congr (h : inv.Loads cwd t w plan)
    (ht : ∀ path ∈ inv.configPaths cwd t ++ inv.templatePaths w,
      t'.node cwd path = t.node cwd path) :
    inv.Loads cwd t' w plan := by
  obtain ⟨a, ha⟩ := exists_answers_load inv cwd t
  obtain ⟨b, hb⟩ := exists_answers_ofWorkspace inv cwd t w
  have ha' := ha.congr fun path hpath => ht path (List.mem_append_left _ hpath)
  have hb' := hb.congr fun path hpath => ht path (List.mem_append_right _ hpath)
  exact ⟨ha'.perform_fst.trans (ha.perform_fst.symm.trans h.workspace),
    hb'.perform_fst.trans (hb.perform_fst.symm.trans h.plan)⟩

/-- **A batch is its turns.** -/
theorem Loads.exec_eq (h : inv.Loads cwd t w plan) (sources : List Path) :
    let fates := (plan.turns cwd t sources t).1
    let tally : Tally := ⟨fates.countP (!·.isDelivered), fates.countP Fate.isUnextracted⟩
    ∃ log, inv.exec cwd t sources =
      (if tally.failures = 0 then .success else .failure,
        ⟨(plan.turns cwd t sources t).2, cwd, String.join (sources.map (plan.printed cwd t)),
          log ++ if tally.failures = 0 ∨ inv.preferences.quiet then ""
          else tally.message sources.length ++ "\n"⟩) := by
  obtain ⟨a, ha⟩ := exists_answers_load inv cwd t
  obtain ⟨b, hb⟩ := exists_answers_ofWorkspace inv cwd t w
  obtain rfl : a = .ok w := ha.perform_fst.symm.trans h.workspace
  obtain rfl : b = .ok plan := hb.perform_fst.symm.trans h.plan
  let r := inv.preferences.reporting inv.onTerminal
  obtain ⟨log, hlog⟩ := BatchPlan.exists_run plan r sources cwd t "" ""
  rw [Tally.foldl_add, Tally.zero, Nat.zero_add, Nat.zero_add, String.empty_append,
    String.empty_append] at hlog
  intro fates tally
  have hgenerate : (Program.carryOut r inv.preferences.config?
      (.generate inv.kind sources inv.template? inv.mode?) :
      StateM Machine _).run ⟨t, cwd, "", ""⟩ =
      (.ok (if tally.failures = 0 then .success else .failure),
        ⟨(plan.turns cwd t sources t).2, cwd, String.join (sources.map (plan.printed cwd t)),
          log ++ if tally.failures = 0 ∨ inv.preferences.quiet then ""
          else tally.message sources.length ++ "\n"⟩) := by
    refine (run_bind_of (ha.run "" "") _).trans
      ((run_bind_of (hb.run "" "") _).trans ((run_bind_of hlog _).trans ?_))
    by_cases hnone : tally.failures = 0
    · rw [if_pos hnone, if_pos hnone, if_pos (Or.inl hnone), String.append_empty]
      rfl
    · rw [if_neg hnone, if_neg hnone]
      refine (run_bind_of (BatchPlan.run_remark ..) _).trans ?_
      simp only [hnone, false_or]
      rfl
  exact ⟨log, run_bind_of hgenerate _⟩

theorem Loads.files_eq (h : inv.Loads cwd t w plan) (sources : List Path) :
    (inv.exec cwd t sources).2.files = (plan.turns cwd t sources t).2 := by
  obtain ⟨log, hlog⟩ := h.exec_eq sources
  rw [hlog]

theorem Loads.out_eq (h : inv.Loads cwd t w plan) (sources : List Path) :
    (inv.exec cwd t sources).2.out = String.join (sources.map (plan.printed cwd t)) := by
  obtain ⟨log, hlog⟩ := h.exec_eq sources
  rw [hlog]

/-- Sources that are read undisturbed are delivered after a run as if they were a part of it. -/
theorem Loads.files_append (h : inv.Loads cwd t w plan) {fs gs : List Path}
    (hgs : inv.Undisturbed cwd t (inv.exec cwd t fs).2.files w gs) :
    (inv.exec cwd t (fs ++ gs)).2.files =
      (inv.exec cwd (inv.exec cwd t fs).2.files gs).2.files := by
  have hnode : ∀ path ∈ inv.configPaths cwd t ++ inv.templatePaths w ++ gs,
      (inv.exec cwd t fs).2.files.node cwd path = t.node cwd path := fun path hpath =>
    FileTree.node_congr (hgs path hpath)
  have hloads : inv.Loads cwd (inv.exec cwd t fs).2.files w plan :=
    h.congr fun path hpath => hnode path (List.mem_append_left gs hpath)
  have hread : ∀ source ∈ gs, (inv.exec cwd t fs).2.files.readText cwd source =
      t.readText cwd source := by
    intro source hsource
    rw [FileTree.readText, FileTree.readText, FileTree.readBytes, FileTree.readBytes,
      hnode source (List.mem_append_right _ hsource)]
  rw [hloads.files_eq, BatchPlan.turns_congr hread, h.files_eq, h.files_eq, BatchPlan.turns_append]

/-- A source that nothing is drafted from can be left out. -/
theorem Loads.files_of_undrafted (h : inv.Loads cwd t w plan) {source : Path} {fate : Fate}
    (hfate : plan.drafted cwd t source = .error fate) (fs gs : List Path) :
    (inv.exec cwd t (fs ++ source :: gs)).2.files = (inv.exec cwd t (fs ++ gs)).2.files ∧
      (inv.exec cwd t (fs ++ source :: gs)).2.out = (inv.exec cwd t (fs ++ gs)).2.out := by
  have hturn : ∀ t', plan.turn cwd t source t' = (fate, t') := fun t' => by
    rw [BatchPlan.turn, hfate]
  have hprinted : plan.printed cwd t source = "" := by
    rw [BatchPlan.printed, hfate]
  constructor
  · rw [h.files_eq, h.files_eq, BatchPlan.turns_append, BatchPlan.turns_append,
      BatchPlan.turns, hturn]
  · rw [h.out_eq, h.out_eq, List.map_append, List.map_append, List.map_cons, hprinted,
      String.join_append, String.join_append, String.join_cons, String.empty_append]

end Loads

/-! ### Concrete runs -/

/-- The workspace of a configuration that is named. -/
theorem perform_load_some {path : Path} {text : String} {config : Config}
    (hread : t.readText cwd path = .ok text)
    (hconfig : Config.ofString text = .ok config) :
    (perform (Workspace.load (some path)) cwd t).1 = .ok ⟨config, Workspace.directoryOf path⟩ := by
  have hload : Answers (Config.load path) cwd t [path] (.ok config) := by
    refine (answers_readText cwd t path).bind ?_
    rw [hread]
    dsimp only
    rw [hconfig]
    exact .pure _ _
  have hfile : Answers (Workspace.ofFile path) cwd t [path]
      (.ok ⟨config, Workspace.directoryOf path⟩) :=
    hload.bind (.pure _ _)
  exact hfile.perform_fst

theorem drafted_of_readText {source : Path} {text : String} {signature : Signature}
    (hread : t.readText cwd source = .ok text)
    (hresult : (Extraction.ofSource text).result = .ok signature) :
    plan.drafted cwd t source = .ok (Template.render plan.template signature) := by
  simp only [BatchPlan.drafted, hread, hresult]

theorem result_ofSource_bare :
    (Extraction.ofSource "module m; endmodule").result = .ok ⟨"m", [], [], [], []⟩ := by
  rw [Extraction.ofSource, Extraction.ofSource?_eq_ofLexing?]
  cbv

section Turns

variable {source : Path} {text : String} {signature : Signature} {before after : FileTree}

theorem turn_of_write_error {cause : DeliveryError} (hread : t.readText cwd source = .ok text)
    (hresult : (Extraction.ofSource text).result = .ok signature) (hmode : plan.mode ≠ .stdout)
    (hwrite : ∀ text,
      perform (Delivery.write (plan.target.resolve source) text (plan.mode == .append)) cwd before =
      (.error cause, after)) :
    plan.turn cwd t source before = (.undelivered cause, after) := by
  simp only [BatchPlan.turn, drafted_of_readText hread hresult, BatchPlan.handOver,
    if_neg hmode, hwrite]

theorem turn_of_write_ok {names : List String} (hread : t.readText cwd source = .ok text)
    (hresult : (Extraction.ofSource text).result = .ok signature) (hmode : plan.mode ≠ .stdout)
    (hwrite : ∀ text,
      perform (Delivery.write (plan.target.resolve source) text (plan.mode == .append)) cwd before =
      (.ok (), before.put names (.file text.toUTF8))) :
    plan.turn cwd t source before =
      (.delivered, before.put names (.file (Template.render plan.template signature).toUTF8)) := by
  simp only [BatchPlan.turn, drafted_of_readText hread hresult, BatchPlan.handOver,
    if_neg hmode, hwrite]

end Turns

/-! ### Files in each other's way -/

/-- A configuration by which text for `o.v` goes to `o/o`, and text for `o/...v` to `o/o/..`. -/
def collidingConfig : String :=
  "[instance]\noutput = \"file-overwrite\"\noutput_dir = \"o\"\nfile_name = \"$\x7bbaseName\x7d\""

def collidingFiles : FileTree :=
  ⟨[(["vgen.toml"], .file collidingConfig.toUTF8), (["o"], .directory),
    (["o", "...v"], .file "module m; endmodule".toUTF8),
    (["o.v"], .file "module m; endmodule".toUTF8)]⟩

def colliding : Invocation :=
  ⟨false, ⟨false, false, .auto, some ⟨"vgen.toml"⟩⟩, .instantiation, none, none⟩

def collidingPlan : BatchPlan :=
  ⟨.instantiation, Template.bundled .instantiation, .overwrite, ⟨"o", "$\x7bbaseName\x7d"⟩⟩

/-- The files with the directory that was made for the first source. -/
def blockedFiles : FileTree := collidingFiles.put ["o", "o"] .directory

theorem loads_colliding : ∃ w, colliding.Loads [] collidingFiles w collidingPlan ∧
    colliding.templatePaths w = [] := by
  have hread : collidingFiles.readText [] ⟨"vgen.toml"⟩ = .ok collidingConfig :=
    FileTree.readText_of_readBytes rfl
  have hconfig : Config.ofString collidingConfig =
      .ok { Config.default with instantiation := ⟨.overwrite, "o", some "$\x7bbaseName\x7d"⟩ } := by
    cbv
  exact ⟨_, ⟨perform_load_some hread hconfig, rfl⟩, rfl⟩

/-- Where it is alone, text for `o.v` is delivered. -/
theorem turn_colliding : collidingPlan.turn [] collidingFiles ⟨"o.v"⟩ collidingFiles =
    (.delivered, collidingFiles.put ["o", "o"] (.file
      (Template.render collidingPlan.template ⟨"m", [], [], [], []⟩).toUTF8)) :=
  turn_of_write_ok (FileTree.readText_of_readBytes rfl) result_ofSource_bare (by decide)
    fun text => by cbv

/-! ### Batches -/

variable {inv : Invocation} {w : Workspace}

/-- **A batch is made of single runs.** On standard output it prints what its parts print, and
changes no file. In files it leaves what its parts leave in runs one after the other, if nothing
that the first writes or creates is looked at to read the configuration, the template or a source of
the second.

It ends well if every source was read, extracted and delivered, and else says how many were not. A
source that fails does not stop it: each is drafted from the files as they are at the start, and
delivered in its turn, onto the files as those before it left them. One that was not read or
extracted could as well be left out, and one that was not delivered leaves every file as it was. -/
theorem exec_append (h : inv.Loads cwd t w plan) :
    (plan.mode = .stdout → ∀ fs gs,
      (inv.exec cwd t (fs ++ gs)).2.out = (inv.exec cwd t fs).2.out ++ (inv.exec cwd t gs).2.out ∧
        (inv.exec cwd t (fs ++ gs)).2.files = t) ∧
    (∀ fs gs, inv.Undisturbed cwd t (inv.exec cwd t fs).2.files w gs →
      (inv.exec cwd t (fs ++ gs)).2.files = (inv.exec cwd (inv.exec cwd t fs).2.files gs).2.files) ∧
    (∀ sources,
      let fates := (plan.turns cwd t sources t).1
      let tally : Tally := ⟨fates.countP (!·.isDelivered), fates.countP Fate.isUnextracted⟩
      (inv.exec cwd t sources).2.files = (plan.turns cwd t sources t).2 ∧
        (inv.exec cwd t sources).1.code = (if fates.all Fate.isDelivered then 0 else 1) ∧
        (inv.preferences.quiet = false → fates.all Fate.isDelivered = false →
          ∃ log, (inv.exec cwd t sources).2.err = log ++ tally.message sources.length ++ "\n")) ∧
    (∀ fs source gs fate, plan.drafted cwd t source = .error fate →
      (inv.exec cwd t (fs ++ source :: gs)).2.files = (inv.exec cwd t (fs ++ gs)).2.files ∧
        (inv.exec cwd t (fs ++ source :: gs)).2.out = (inv.exec cwd t (fs ++ gs)).2.out) ∧
    (∀ source before after cause, plan.turn cwd t source before = (.undelivered cause, after) →
      SameFiles before after) := by
  refine ⟨fun hmode fs gs => ⟨?_, ?_⟩, fun fs gs => h.files_append, fun sources => ?_,
    fun fs source gs fate hfate => h.files_of_undrafted hfate fs gs,
    fun source before after cause => BatchPlan.sameFiles_of_undelivered⟩
  · rw [h.out_eq, h.out_eq, h.out_eq, List.map_append, String.join_append]
  · rw [h.files_eq, BatchPlan.turns_of_stdout hmode]
  · intro fates tally
    obtain ⟨log, hlog⟩ := h.exec_eq sources
    have hall : tally.failures = 0 ↔ fates.all Fate.isDelivered = true := by
      simp [tally, List.countP_eq_zero]
    rw [hlog]
    refine ⟨rfl, ?_, fun hquiet hfailed => ⟨log, ?_⟩⟩
    · by_cases hdelivered : fates.all Fate.isDelivered = true
      · rw [if_pos hdelivered, if_pos (hall.2 hdelivered)]
        rfl
      · rw [if_neg hdelivered, if_neg (mt hall.1 hdelivered)]
        rfl
    · have hfailures : ¬(tally.failures = 0 ∨ inv.preferences.quiet = true) := by
        rw [hall, hfailed, hquiet]
        decide
      rw [if_neg hfailures, String.append_assoc]

/-- The text for one source is delivered to `o/o`, where the text for the next would need a
directory. -/
theorem exec_append_colliding :
    ∃ w, colliding.Loads [] collidingFiles w collidingPlan ∧
      colliding.Undisturbed [] collidingFiles (colliding.exec [] collidingFiles [⟨"o.v"⟩]).2.files
        w [⟨"o/...v"⟩] ∧
      (colliding.exec [] collidingFiles ([⟨"o.v"⟩] ++ [⟨"o/...v"⟩])).2.files =
        (colliding.exec [] (colliding.exec [] collidingFiles [⟨"o.v"⟩]).2.files
          [⟨"o/...v"⟩]).2.files := by
  obtain ⟨w, hloads, hpaths⟩ := loads_colliding
  have hwritten : (colliding.exec [] collidingFiles [⟨"o.v"⟩]).2.files =
      collidingFiles.put ["o", "o"] (.file
      (Template.render collidingPlan.template ⟨"m", [], [], [], []⟩).toUTF8) := by
    simp only [hloads.files_eq, BatchPlan.turns, turn_colliding]
  have hundisturbed :
      colliding.Undisturbed [] collidingFiles (colliding.exec [] collidingFiles [⟨"o.v"⟩]).2.files w
      [⟨"o/...v"⟩] := by
    have hconfig : colliding.configPaths [] collidingFiles = [⟨"vgen.toml"⟩] := rfl
    have htoml : collidingFiles.trailOf [] ⟨"vgen.toml"⟩ = [[], ["vgen.toml"]] := rfl
    have hsource : collidingFiles.trailOf [] ⟨"o/...v"⟩ = [[], ["o"], ["o", "...v"]] := rfl
    intro path hpath names hnames
    rw [hconfig, hpaths] at hpath
    have hcases : path = ⟨"vgen.toml"⟩ ∨ path = ⟨"o/...v"⟩ := by simpa using hpath
    rw [hwritten, FileTree.find?_put _ (by decide), if_neg]
    rcases hcases with rfl | rfl
    · rw [htoml] at hnames
      rintro rfl
      simp at hnames
    · rw [hsource] at hnames
      rintro rfl
      simp at hnames
  exact ⟨w, hloads, hundisturbed, (exec_append hloads).2.1 [⟨"o.v"⟩] [⟨"o/...v"⟩] hundisturbed⟩

/-- A failing file keeps another from being delivered. The path `o/o/..` leads to no file, but `o/o`
is made to go there, and then `o/o` cannot be written, which is written where the first file is left
out. -/
theorem exec_colliding :
    (∃ w, colliding.Loads [] collidingFiles w collidingPlan) ∧
      (colliding.exec [] collidingFiles [⟨"o/...v"⟩]).1 = .failure ∧
      (colliding.exec [] collidingFiles [⟨"o.v"⟩]).1 = .success ∧
      (colliding.exec [] collidingFiles [⟨"o.v"⟩]).2.files.isFile [] ⟨"o/o"⟩ = true ∧
      (colliding.exec [] collidingFiles [⟨"o/...v"⟩, ⟨"o.v"⟩]).2.files.isFile []
        ⟨"o/o"⟩ = false := by
  obtain ⟨w, hloads, -⟩ := loads_colliding
  have hclimbing : collidingPlan.turn [] collidingFiles ⟨"o/...v"⟩ collidingFiles =
      (.undelivered (.file ⟨"o/o/.."⟩ .isADirectory), blockedFiles) :=
    turn_of_write_error (FileTree.readText_of_readBytes rfl) result_ofSource_bare (by decide)
      fun text => by cbv
  have hblocked : collidingPlan.turn [] collidingFiles ⟨"o.v"⟩ blockedFiles =
      (.undelivered (.file ⟨"o/o"⟩ .isADirectory), blockedFiles) :=
    turn_of_write_error (FileTree.readText_of_readBytes rfl) result_ofSource_bare (by decide)
      fun text => by cbv
  refine ⟨⟨w, hloads⟩, ?_, ?_, ?_, ?_⟩
  · obtain ⟨log, hlog⟩ := hloads.exec_eq [⟨"o/...v"⟩]
    rw [hlog, BatchPlan.turns, hclimbing]
    rfl
  · obtain ⟨log, hlog⟩ := hloads.exec_eq [⟨"o.v"⟩]
    rw [hlog, BatchPlan.turns, turn_colliding]
    rfl
  · rw [hloads.files_eq, BatchPlan.turns, turn_colliding]
    rfl
  · rw [hloads.files_eq, BatchPlan.turns, hclimbing]
    show (BatchPlan.turns _ _ _ [⟨"o.v"⟩] blockedFiles).2.isFile [] ⟨"o/o"⟩ = false
    rw [BatchPlan.turns, hblocked]
    rfl

end Invocation

end VerilogScaffold
