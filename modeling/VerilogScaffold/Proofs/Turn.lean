import VerilogScaffold.Command.Program
import VerilogScaffold.Proofs.Walk

/-!
# Turns of a batch

A batch reads all of its sources before it delivers anything, and then delivers them in turn. What
comes of a source is therefore decided by the files as they were at the start, and by those that its
turn finds (`BatchPlan.turn`). A batch is its turns, one after the other, and nothing else
(`BatchPlan.exists_run`).

A delivery that fails may leave directories behind that it made, but no file that was not there, and
every file as it was (`BatchPlan.sameFiles_of_undelivered`).
-/

namespace VerilogScaffold

open Machine

variable {cwd : List String} {t t' start : FileTree} {plan : BatchPlan} {source : Path}

/-! ## Turns -/

/-- What came of a source in a batch. -/
inductive Fate
  | unread (cause : FileError)
  /-- It was read, but no signature was extracted from it. -/
  | unextracted (cause : ExtractError Span)
  | undelivered (cause : DeliveryError)
  | delivered

namespace Fate

/-- Whether a source was read, extracted and delivered. -/
def isDelivered : Fate → Bool
  | .delivered => true
  | _ => false

def isUnextracted : Fate → Bool
  | .unextracted _ => true
  | _ => false

end Fate

/-- Counts what came of a source. -/
def Tally.add (tally : Tally) (fate : Fate) : Tally :=
  ⟨tally.failures + (if fate.isDelivered then 0 else 1),
    tally.withoutModule + (if fate.isUnextracted then 1 else 0)⟩

namespace BatchPlan

/-- The text that is drafted from a source, or what comes of the source without one. -/
def drafted (plan : BatchPlan) (cwd : List String) (start : FileTree) (source : Path) :
    Except Fate String :=
  match start.readText cwd source with
  | .error cause => .error (.unread cause)
  | .ok text =>
    match (Extraction.ofSource text).result with
    | .error cause => .error (.unextracted cause)
    | .ok signature => .ok (Template.render plan.template signature)

/-- Hands a text over, onto some files. -/
def handOver (plan : BatchPlan) (cwd : List String) (source : Path) (text : String) (t : FileTree) :
    Fate × FileTree :=
  if plan.mode = .stdout then (.delivered, t)
  else
    match perform (Delivery.write (plan.target.resolve source) text
      (plan.mode == .append)) cwd t with
    | (.ok (), t') => (.delivered, t')
    | (.error cause, t') => (.undelivered cause, t')

/-- The turn of a source in a batch that starts on some files and has come to others: what comes of
the source, and the files it leaves. -/
def turn (plan : BatchPlan) (cwd : List String) (start : FileTree) (source : Path) (t : FileTree) :
    Fate × FileTree :=
  match plan.drafted cwd start source with
  | .error fate => (fate, t)
  | .ok text => plan.handOver cwd source text t

/-- The turns of sources, one after the other. -/
def turns (plan : BatchPlan) (cwd : List String) (start : FileTree) :
    List Path → FileTree → List Fate × FileTree
  | [], t => ([], t)
  | source :: rest, t =>
    let (fate, t') := plan.turn cwd start source t
    let (fates, t'') := turns plan cwd start rest t'
    (fate :: fates, t'')

/-- What a source prints on standard output. -/
def printed (plan : BatchPlan) (cwd : List String) (start : FileTree) (source : Path) : String :=
  match plan.drafted cwd start source with
  | .error _ => ""
  | .ok text => if plan.mode = .stdout then Delivery.ended text else ""

theorem turns_append (as bs : List Path) (t : FileTree) :
    plan.turns cwd start (as ++ bs) t =
      ((plan.turns cwd start as t).1 ++ (plan.turns cwd start bs (plan.turns cwd start as t).2).1,
        (plan.turns cwd start bs (plan.turns cwd start as t).2).2) := by
  induction as generalizing t with
  | nil => rfl
  | cons a as ih => simp only [List.cons_append, turns, ih]

/-- Turns depend on what their sources held at the start. -/
theorem turns_congr {sources : List Path}
    (h : ∀ source ∈ sources, t'.readText cwd source = start.readText cwd source) (t : FileTree) :
    plan.turns cwd t' sources t = plan.turns cwd start sources t := by
  induction sources generalizing t with
  | nil => rfl
  | cons source rest ih =>
    obtain ⟨hsource, hrest⟩ := List.forall_mem_cons.1 h
    have hturn : plan.turn cwd t' source t = plan.turn cwd start source t := by
      rw [turn, turn, drafted, drafted, hsource]
    simp only [turns, hturn, ih hrest]

/-- On standard output no turn changes a file. -/
theorem turns_of_stdout (h : plan.mode = .stdout) (sources : List Path) (t : FileTree) :
    (plan.turns cwd start sources t).2 = t := by
  induction sources generalizing t with
  | nil => rfl
  | cons source rest ih =>
    have hturn : (plan.turn cwd start source t).2 = t := by
      rw [turn]
      split
      · rfl
      · rw [handOver, if_pos h]
    rw [turns]
    show (plan.turns cwd start rest (plan.turn cwd start source t).2).2 = t
    rw [hturn, ih]

end BatchPlan

/-! ## Deliveries -/

namespace Delivery

theorem onlyMakesDirectories_prepare (path : Path) :
    OnlyMakesDirectories (prepare path : StateM Machine _) := by
  rw [prepare]
  split
  · exact .pure _
  · refine .bind (.ensureDirectories _) fun ensured => ?_
    rcases ensured with e | _ <;> exact .pure _

theorem sparesFiles_write (path : Path) (text : String) (adding : Bool) :
    SparesFiles (write path text adding : StateM Machine _) := by
  refine .after (.of_onlyMakesDirectories (onlyMakesDirectories_prepare path)) fun prepared => ?_
  rcases prepared with e | _
  · exact .of_keepsFiles (.pure _)
  · refine .after (.of_onlyMakesDirectories (.bind (.ask _) fun _ => .pure _)) fun present => ?_
    dsimp only
    split
    · exact .change (fun t cwd => t.appendBytes cwd path (separator ++ text).toUTF8)
        (DeliveryError.file path) rfl fun _ => rfl
    · exact .change (fun t cwd => t.writeBytes cwd path text.toUTF8) (DeliveryError.file path)
        rfl fun _ => rfl

/-- A delivery that fails leaves every file as it is. -/
theorem sameFiles_of_error {path : Path} {text : String} {adding : Bool} {e : DeliveryError}
    (h : perform (write path text adding) cwd t = (.error e, t')) : SameFiles t t' :=
  (sparesFiles_write path text adding).sameFiles cwd t e t' h

variable {text : String} {mode : OutputMode} {target : OutputTarget}

theorem run_deliver_stdout (text : String) (source : Path) (target : OutputTarget) (t : FileTree)
    (cwd : List String) (out err : String) :
    (deliver text source .stdout target : StateM Machine _).run ⟨t, cwd, out, err⟩ =
      (.ok none, ⟨t, cwd, out ++ ended text, err⟩) := rfl

theorem run_deliver_file (hmode : mode ≠ .stdout) (text : String) (source : Path)
    (target : OutputTarget) (t : FileTree) (cwd : List String) (out err : String) :
    (deliver text source mode target : StateM Machine _).run ⟨t, cwd, out, err⟩ =
      ((perform (write (target.resolve source) text (mode == .append)) cwd t).1.map fun _ =>
          some (target.resolve source),
        ⟨(perform (write (target.resolve source) text (mode == .append)) cwd t).2, cwd,
          out, err⟩) := by
  have hdeliver : (deliver text source mode target : StateM Machine _) =
      write (target.resolve source) text (mode == .append) >>= fun written =>
        pure (written.map fun _ => some (target.resolve source)) := by
    cases mode with
    | stdout => exact absurd rfl hmode
    | overwrite => exact congrArg (bind _) (funext fun written => by rcases written <;> rfl)
    | append => exact congrArg (bind _) (funext fun written => by rcases written <;> rfl)
  rw [hdeliver, run_bind_of
    ((sparesFiles_write (target.resolve source) text (mode == .append)).onFiles t cwd out err)]
  rfl

end Delivery

namespace BatchPlan

/-- A failed delivery leaves every file as it is. -/
theorem sameFiles_of_undelivered {cause : DeliveryError}
    (h : plan.turn cwd start source t = (.undelivered cause, t')) :
    SameFiles t t' := by
  rw [turn] at h
  split at h
  · rw [← (Prod.mk.inj h).2]
    exact .refl t
  · rw [handOver] at h
    split at h
    · cases congrArg Prod.fst h
    · split at h
      · cases congrArg Prod.fst h
      · rename_i hwrite
        obtain ⟨hcause, rfl⟩ := Prod.mk.inj h
        exact Delivery.sameFiles_of_error hwrite

/-! ## Batches are their turns -/

/-- What a source looks like on some files. -/
def surveyed (colour : Bool) (cwd : List String) (start : FileTree) (source : Path) : Survey :=
  match start.readText cwd source with
  | .ok text => .ofFile colour ⟨source, text⟩
  | .error cause => ⟨"", .error (.unreadable source cause)⟩

/-- The draft of a source. -/
def draftOf (plan : BatchPlan) (colour : Bool) (cwd : List String) (start : FileTree)
    (source : Path) : Draft :=
  ⟨source, (surveyed colour cwd start source).report,
    (surveyed colour cwd start source).result.map (Template.render plan.template)⟩

theorem answers_draft (plan : BatchPlan) (colour : Bool) (cwd : List String) (start : FileTree)
    (source : Path) :
    Answers (plan.draft colour source) cwd start [source]
      (plan.draftOf colour cwd start source) := by
  have hread : Answers (Survey.read colour source) cwd start [source]
      (surveyed colour cwd start source) := by
    refine (answers_readText cwd start source).bind ?_
    rw [surveyed]
    rcases start.readText cwd source with cause | text <;> exact .pure _ _
  exact hread.bind (.pure _ _)

/-- The first round of a batch: its sources are read, and nothing is changed. -/
theorem answers_drafts (plan : BatchPlan) (colour : Bool) (cwd : List String) (start : FileTree)
    (sources : List Path) :
    Answers (sources.mapM (plan.draft colour)) cwd start sources
      (sources.map (plan.draftOf colour cwd start)) := by
  induction sources with
  | nil => exact .pure _ _
  | cons source rest ih =>
    rw [List.mapM_cons, List.map_cons]
    refine ((answers_draft plan colour cwd start source).mono (by simp)).bind ?_
    exact (ih.mono (List.subset_cons_self source rest)).bind (.pure _ _)

/-- Whether a program only adds to what is printed as errors. -/
def Complains (x : StateM Machine Unit) : Prop :=
  ∀ t cwd out err, ∃ log, x.run ⟨t, cwd, out, err⟩ = ((), ⟨t, cwd, out, err ++ log⟩)

theorem complains_putError (text : String) : Complains (MonadConsole.putError text) :=
  fun _ _ _ _ => ⟨text, rfl⟩

theorem complains_pure :
    Complains (pure ()) := fun t cwd out err => ⟨"", by rw [String.append_empty]; rfl⟩

theorem run_remark (r : Reporting) (line : String) (t : FileTree) (cwd : List String)
    (out err : String) :
    (r.remark line : StateM Machine Unit).run ⟨t, cwd, out, err⟩ =
      ((), ⟨t, cwd, out, err ++ if r.quiet then "" else line ++ "\n"⟩) := by
  rw [Reporting.remark]
  split
  · rw [String.append_empty]
    rfl
  · rfl

theorem complains_remark (r : Reporting) (line : String) : Complains (r.remark line) :=
  fun t cwd out err => ⟨_, run_remark r line t cwd out err⟩

theorem complains_publish (r : Reporting) (report : String) (isOk : Bool) :
    Complains (r.publish report isOk) := by
  rw [Reporting.publish]
  split
  · exact complains_pure
  · exact complains_putError _

variable {r : Reporting} {tally : Tally} {report : String}

theorem deliver_of_error (e : SourceError) (t : FileTree) (cwd : List String) (out err : String) :
    ∃ log, (plan.deliver r tally ⟨source, report, .error e⟩ : StateM Machine Tally).run ⟨t, cwd,
      out, err⟩ = (tally.addSource e, ⟨t, cwd, out, err ++ log⟩) := by
  obtain ⟨log, hlog⟩ := complains_publish r report false t cwd out err
  refine ⟨log ++ ("error: " ++ e.message ++ "\n"), ?_⟩
  rw [deliver, ← String.append_assoc]
  exact run_bind_of hlog _

theorem deliver_of_ok (text : String) (t : FileTree) (cwd : List String) (out err : String) :
    ∃ log, (plan.deliver r tally ⟨source, report, .ok text⟩ : StateM Machine Tally).run ⟨t, cwd,
      out, err⟩ = (tally.add (plan.handOver cwd source text t).1,
        ⟨(plan.handOver cwd source text t).2, cwd,
          out ++ (if plan.mode = .stdout then Delivery.ended text else ""), err ++ log⟩) := by
  obtain ⟨log, hlog⟩ := complains_publish r report true t cwd out err
  rw [deliver]
  by_cases hmode : plan.mode = .stdout
  · refine ⟨log, ?_⟩
    rw [handOver, if_pos hmode, if_pos hmode, hmode]
    exact (run_bind_of hlog _).trans
      (run_bind_of (Delivery.run_deliver_stdout text source plan.target ..) _)
  · have hdeliver := Delivery.run_deliver_file hmode text source plan.target t cwd out (err ++ log)
    rw [handOver, if_neg hmode, if_neg hmode, String.append_empty]
    generalize perform (Delivery.write (plan.target.resolve source) text (plan.mode == .append)) cwd
      t = written at hdeliver ⊢
    rcases written with ⟨cause | _, t'⟩
    · refine ⟨log ++ ("error: " ++ cause.message ++ "\n"),
        (run_bind_of hlog _).trans ((run_bind_of hdeliver _).trans ?_)⟩
      rw [← String.append_assoc]
      rfl
    · obtain ⟨more, hmore⟩ := complains_remark r ("   Generated " ++ plan.kind.word ++ " -> " ++
        (plan.target.resolve source).text) t' cwd out (err ++ log)
      refine ⟨log ++ more, (run_bind_of hlog _).trans ((run_bind_of hdeliver _).trans ?_)⟩
      rw [← String.append_assoc]
      exact run_bind_of hmore _

/-- One turn, in the second round of a batch. -/
theorem exists_deliver (plan : BatchPlan) (r : Reporting) (tally : Tally) (source : Path)
    (start t : FileTree) (cwd : List String) (out err : String) :
    ∃ log, (plan.deliver r tally (plan.draftOf r.colour cwd start source) :
        StateM Machine Tally).run ⟨t, cwd, out, err⟩ =
      (tally.add (plan.turn cwd start source t).1,
        ⟨(plan.turn cwd start source t).2, cwd, out ++ plan.printed cwd start source,
          err ++ log⟩) := by
  rw [turn, printed, drafted, draftOf, surveyed]
  rcases start.readText cwd source with cause | text
  · obtain ⟨log, hlog⟩ := deliver_of_error (.unreadable source cause) t cwd out err
    refine ⟨log, hlog.trans ?_⟩
    rw [String.append_empty]
    rfl
  · simp only [Survey.ofFile]
    rcases (Extraction.ofSource text).result with cause | signature
    · obtain ⟨log, hlog⟩ := deliver_of_error (.noSignature source cause) t cwd out err
      refine ⟨log, hlog.trans ?_⟩
      rw [String.append_empty]
      rfl
    · exact deliver_of_ok (Template.render plan.template signature) t cwd out err

/-- The second round of a batch: the turns of its sources. -/
theorem exists_foldlM_deliver (plan : BatchPlan) (r : Reporting) (sources : List Path)
    (start : FileTree) (cwd : List String) (tally : Tally) (t : FileTree) (out err : String) :
    ∃ log, ((sources.map (plan.draftOf r.colour cwd start)).foldlM (plan.deliver r) tally :
        StateM Machine Tally).run ⟨t, cwd, out, err⟩ =
      ((plan.turns cwd start sources t).1.foldl Tally.add tally,
        ⟨(plan.turns cwd start sources t).2, cwd,
          out ++ String.join (sources.map (plan.printed cwd start)),
          err ++ log⟩) := by
  induction sources generalizing tally t out err with
  | nil => exact ⟨"", by simp [turns]; rfl⟩
  | cons source rest ih =>
    obtain ⟨log, hlog⟩ := exists_deliver plan r tally source start t cwd out err
    obtain ⟨more, hmore⟩ :=
      ih (tally.add (plan.turn cwd start source t).1) (plan.turn cwd start source t).2
      (out ++ plan.printed cwd start source) (err ++ log)
    refine ⟨log ++ more, ?_⟩
    rw [List.map_cons, List.foldlM_cons]
    refine (run_bind_of hlog _).trans (hmore.trans ?_)
    rw [List.map_cons, String.join_cons, ← String.append_assoc, ← String.append_assoc]
    rfl

/-- A batch is its turns. -/
theorem exists_run (plan : BatchPlan) (r : Reporting) (sources : List Path) (cwd : List String)
    (start : FileTree) (out err : String) :
    ∃ log, (plan.run r sources : StateM Machine Tally).run ⟨start, cwd, out, err⟩ =
      ((plan.turns cwd start sources start).1.foldl Tally.add .zero,
        ⟨(plan.turns cwd start sources start).2, cwd,
          out ++ String.join (sources.map (plan.printed cwd start)),
          err ++ log⟩) := by
  obtain ⟨log, hlog⟩ := exists_foldlM_deliver plan r sources start cwd .zero start out err
  exact ⟨log,
    (run_bind_of ((answers_drafts plan r.colour cwd start sources).run out err) _).trans hlog⟩

end BatchPlan

/-- The failures in a batch are the sources that were not delivered. -/
theorem Tally.foldl_add (tally : Tally) (fates : List Fate) :
    fates.foldl Tally.add tally =
      ⟨tally.failures + fates.countP (!·.isDelivered),
        tally.withoutModule + fates.countP Fate.isUnextracted⟩ := by
  induction fates generalizing tally with
  | nil => rfl
  | cons fate rest ih =>
    rw [List.foldl_cons, ih, List.countP_cons, List.countP_cons]
    cases fate <;> simp [Tally.add, Fate.isDelivered, Fate.isUnextracted] <;> omega

end VerilogScaffold
