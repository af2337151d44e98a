import Mathlib.Data.List.Perm.Subperm
import Mathlib.Logic.Function.Basic
import VerilogScaffold.Diagnostic.Sink

/-!
# A shared sink loses nothing

Clients that share a sink come between each other's steps. A diagnostic is counted at one moment and
put behind those held at a later one, and what is held may be taken out at any time. `Step` is one
such step, with what it answers, and `Run` is any interleaving of them.

What has happened is read off the steps of a run: which diagnostics were counted, pushed and taken.
What was taken and what is held are together what was pushed (`Run.taken_append_held`). What a
client counted is what it pushed, and the diagnostic it is about to push if it is between its two
steps (`Run.counted_eq_pushed`). The sink counts what was counted, which is never less than what was
pushed, and no more if nobody is between the steps.
-/

namespace VerilogScaffold

namespace SharedSink

variable {Client : Type}

/-! ## Steps of clients -/

/-- One atomic step of a client, with what it answers. -/
inductive Action (Client : Type)
  /-- The first step of giving a diagnostic: it is counted, if it is an error. -/
  | count (client : Client) (d : Diagnostic)
  /-- The second step: the diagnostic is put behind those held. -/
  | push (client : Client) (d : Diagnostic)
  | takeAll (taken : List Diagnostic)
  | diagnostics (held : List Diagnostic)
  | hasErrors (answer : Bool)
  | errorCount (answer : Nat)

/-- A sink, and for each client the diagnostic that it has counted and not yet pushed. -/
structure State (Client : Type) where
  sink : Sink
  pending : Client → Option Diagnostic

/-- A new sink that no client has used. -/
def State.start : State Client := ⟨.empty, fun _ => none⟩

/-- What one step does. A client gives its diagnostics one after the other. -/
inductive Step [DecidableEq Client] : State Client → Action Client → State Client → Prop
  | count {s : State Client} {client : Client} (d : Diagnostic) (idle : s.pending client = none) :
      Step s (.count client d) ⟨s.sink.count d, Function.update s.pending client (some d)⟩
  | push {s : State Client} {client : Client} {d : Diagnostic}
      (counted : s.pending client = some d) :
      Step s (.push client d) ⟨s.sink.push d, Function.update s.pending client none⟩
  | takeAll (s : State Client) : Step s (.takeAll s.sink.takeAll.1) ⟨s.sink.takeAll.2, s.pending⟩
  | diagnostics (s : State Client) : Step s (.diagnostics s.sink.held) s
  | hasErrors (s : State Client) : Step s (.hasErrors s.sink.hasErrors) s
  | errorCount (s : State Client) : Step s (.errorCount s.sink.errorCount) s

/-- Steps of any clients, in any order. -/
inductive Run [DecidableEq Client] (start : State Client) :
    List (Action Client) → State Client → Prop
  | nil : Run start [] start
  | snoc {s s' : State Client} {actions : List (Action Client)} {a : Action Client}
      (run : Run start actions s) (step : Step s a s') : Run start (actions ++ [a]) s'

/-! ## What has happened -/

def Action.counted? : Action Client → Option (Client × Diagnostic)
  | .count client d => some (client, d)
  | .push .. | .takeAll _ | .diagnostics _ | .hasErrors _ | .errorCount _ => none

def Action.pushed? : Action Client → Option (Client × Diagnostic)
  | .push client d => some (client, d)
  | .count .. | .takeAll _ | .diagnostics _ | .hasErrors _ | .errorCount _ => none

def Action.taken : Action Client → List Diagnostic
  | .takeAll ds => ds
  | .count .. | .push .. | .diagnostics _ | .hasErrors _ | .errorCount _ => []

/-- The diagnostics that were counted, with their clients. -/
def counted (actions : List (Action Client)) :
    List (Client × Diagnostic) := actions.filterMap Action.counted?

/-- The diagnostics that were pushed, with their clients. -/
def pushed (actions : List (Action Client)) :
    List (Client × Diagnostic) := actions.filterMap Action.pushed?

/-- The diagnostics that were taken out, in the order in which they were. -/
def taken (actions : List (Action Client)) : List Diagnostic := actions.flatMap Action.taken

/-- The part of a history that is one client's. -/
def ofClient [DecidableEq Client] (client : Client) (history : List (Client × Diagnostic)) :
    List (Client × Diagnostic) :=
  history.filter (·.1 = client)

theorem counted_concat (actions : List (Action Client)) (a : Action Client) :
    counted (actions ++ [a]) = counted actions ++ a.counted?.toList := by
  rw [counted, List.filterMap_append]
  cases a <;> rfl

theorem pushed_concat (actions : List (Action Client)) (a : Action Client) :
    pushed (actions ++ [a]) = pushed actions ++ a.pushed?.toList := by
  rw [pushed, List.filterMap_append]
  cases a <;> rfl

theorem taken_concat (actions : List (Action Client)) (a : Action Client) :
    taken (actions ++ [a]) = taken actions ++ a.taken := by
  rw [taken, List.flatMap_append, List.flatMap_singleton]
  rfl

section

variable [DecidableEq Client] {s s' : State Client} {a : Action Client}
  {actions : List (Action Client)}

theorem ofClient_append (client : Client) (history more : List (Client × Diagnostic)) :
    ofClient client (history ++ more) = ofClient client history ++ ofClient client more :=
  List.filter_append ..

theorem ofClient_self (client : Client) (d : Diagnostic) :
    ofClient client [(client, d)] = [(client, d)] := by
  simp [ofClient]

theorem ofClient_of_ne {client other : Client} (h : other ≠ client) (d : Diagnostic) :
    ofClient client [(other, d)] = [] := by
  simp [ofClient, h]

/-! ## What one step keeps -/

/-- A step moves diagnostics from those held to those taken, and adds those pushed behind them. -/
theorem Step.taken_append_held (h : Step s a s') :
    a.taken ++ s'.sink.held = s.sink.held ++ (a.pushed?.toList).map Prod.snd := by
  cases h with
  | count d idle => exact (Sink.held_count s.sink d).trans (List.append_nil _).symm
  | push counted => rfl
  | takeAll => rfl
  | diagnostics => exact (List.append_nil _).symm
  | hasErrors => exact (List.append_nil _).symm
  | errorCount => exact (List.append_nil _).symm

/-- What a client has pending and what it counts is what it pushes and what it has pending after the
step. -/
theorem Step.pending_append_counted (h : Step s a s') (client : Client) :
    ((s.pending client).map (Prod.mk client)).toList ++ ofClient client a.counted?.toList =
      ofClient client a.pushed?.toList ++ ((s'.pending client).map (Prod.mk client)).toList := by
  cases h with
  | @count other d idle =>
    show _ ++ ofClient client [(other, d)] =
      ((Function.update s.pending other (some d) client).map _).toList
    by_cases hclient : other = client
    · subst hclient
      rw [idle, ofClient_self, Function.update_self]
      rfl
    · rw [ofClient_of_ne hclient, Function.update_of_ne (Ne.symm hclient), List.append_nil]
  | @push other d counted =>
    show _ ++ [] = ofClient client [(other, d)] ++
      ((Function.update s.pending other none client).map _).toList
    rw [List.append_nil]
    by_cases hclient : other = client
    · subst hclient
      rw [counted, ofClient_self, Function.update_self]
      rfl
    · rw [ofClient_of_ne hclient, Function.update_of_ne (Ne.symm hclient), List.nil_append]
  | takeAll => exact List.append_nil _
  | diagnostics => exact List.append_nil _
  | hasErrors => exact List.append_nil _
  | errorCount => exact List.append_nil _

/-- The count goes up where an error is counted, and never down. -/
theorem Step.errorCount_eq (h : Step s a s') :
    s'.sink.errorCount = s.sink.errorCount +
      VerilogScaffold.errorCount (a.counted?.toList.map Prod.snd) := by
  cases h with
  | count d idle =>
    show (s.sink.count d).errorCount = s.sink.errorCount + List.countP _ [d]
    rw [List.countP_singleton]
    unfold Sink.count
    split <;> rfl
  | push counted => rfl
  | takeAll => rfl
  | diagnostics => rfl
  | hasErrors => rfl
  | errorCount => rfl

/-! ## What a run keeps -/

/-- What was taken and what is held is what was pushed. -/
theorem Run.taken_append_held (h : Run .start actions s) :
    taken actions ++ s.sink.held = (pushed actions).map Prod.snd := by
  induction h with
  | nil => rfl
  | snoc run step ih =>
    rw [taken_concat, pushed_concat, List.map_append, ← ih, List.append_assoc, List.append_assoc,
      step.taken_append_held]

/-- What a client counted is what it pushed, and what it has pending. -/
theorem Run.counted_eq_pushed (h : Run .start actions s) (client : Client) :
    ofClient client (counted actions) =
      ofClient client (pushed actions) ++ ((s.pending client).map (Prod.mk client)).toList := by
  induction h with
  | nil => rfl
  | snoc run step ih =>
    rw [counted_concat, pushed_concat, ofClient_append, ofClient_append, ih, List.append_assoc,
      List.append_assoc, step.pending_append_counted]

/-- A sink counts the errors among what was counted. -/
theorem Run.errorCount_eq (h : Run .start actions s) :
    s.sink.errorCount = errorCount ((counted actions).map Prod.snd) := by
  induction h with
  | nil => rfl
  | snoc run step ih =>
    rw [counted_concat, List.map_append, step.errorCount_eq, ih]
    exact List.countP_append.symm

theorem count_ofClient (history : List (Client × Diagnostic)) (x : Client × Diagnostic) :
    (ofClient x.1 history).count x = history.count x :=
  List.count_filter (by simp)

/-- No diagnostic is pushed more often than it was counted. -/
theorem Run.pushed_subperm (h : Run .start actions s) :
    (pushed actions).Subperm (counted actions) := by
  apply List.subperm_ext_iff.2
  intro x _
  rw [← count_ofClient, ← count_ofClient (counted actions), h.counted_eq_pushed x.1,
    List.count_append]
  exact Nat.le_add_right _ _

/-- All that was counted is pushed once nobody is between the two steps. -/
theorem Run.pushed_perm (h : Run .start actions s) (hidle : ∀ client, s.pending client = none) :
    (pushed actions).Perm (counted actions) := by
  apply List.perm_iff_count.2
  intro x
  rw [← count_ofClient, ← count_ofClient (counted actions), h.counted_eq_pushed x.1, hidle]
  exact congrArg (List.count x) (List.append_nil _).symm

/-- A client whose two steps nobody comes between gives its diagnostic as it would alone. -/
theorem Run.emit {start : State Client} (h : Run start actions s) {client : Client}
    (hidle : s.pending client = none) (d : Diagnostic) :
    Run start (actions ++ [.count client d] ++ [.push client d]) ⟨s.sink.emit d, s.pending⟩ := by
  have hcount := h.snoc (.count d hidle)
  have hpush := hcount.snoc (.push (Function.update_self client (some d) s.pending))
  rw [Function.update_idem, ← hidle, Function.update_eq_self] at hpush
  exact hpush

/-- **A shared sink loses nothing and repeats nothing.** However the steps of its clients come
between each other, what was taken out and what is held are what was pushed, each diagnostic once
and in the order in which it was, and each client pushes what it gives in its own order. The count
is no less than the errors among these, so an error that can be seen was counted, and it is the same
if nobody is between the two steps. No step lowers the count. -/
theorem Run.conserves (h : Run .start actions s) :
    taken actions ++ s.sink.held = (pushed actions).map Prod.snd ∧
      (∀ client, ofClient client (counted actions) =
        ofClient client (pushed actions) ++ ((s.pending client).map (Prod.mk client)).toList) ∧
      errorCount (taken actions ++ s.sink.held) ≤ s.sink.errorCount ∧
      ((∃ d ∈ taken actions ++ s.sink.held, d.severity = .error) → s.sink.hasErrors = true) ∧
      ((∀ client, s.pending client = none) →
        s.sink.errorCount = errorCount (taken actions ++ s.sink.held)) ∧
      ∀ a s', Step s a s' → s.sink.errorCount ≤ s'.sink.errorCount := by
  have hle : errorCount (taken actions ++ s.sink.held) ≤ s.sink.errorCount := by
    rw [h.taken_append_held, h.errorCount_eq]
    unfold errorCount
    rw [List.countP_map, List.countP_map]
    exact h.pushed_subperm.countP_le _
  refine ⟨h.taken_append_held, h.counted_eq_pushed, hle, ?_, ?_, ?_⟩
  · rintro ⟨d, hd, herror⟩
    have hpos : 0 < errorCount (taken actions ++ s.sink.held) := by
      apply List.countP_pos_iff.2
      exact ⟨d, hd, by rw [herror]; rfl⟩
    unfold Sink.hasErrors
    exact decide_eq_true (Nat.lt_of_lt_of_le hpos hle)
  · intro hidle
    rw [h.taken_append_held, h.errorCount_eq]
    exact ((h.pushed_perm hidle).map Prod.snd).countP_eq _ |>.symm
  · intro a s' hstep
    rw [hstep.errorCount_eq]
    exact Nat.le_add_right _ _

def unclosedString : Diagnostic := .error 102 "unterminated string literal" ⟨0, 2⟩

def unclosedBlock : Diagnostic := .warning 304 "`task` block is never closed" ⟨4, 8⟩

/-- One client is between its steps while another gives a warning and the sink is emptied. -/
def interleaving : List (Action Bool) :=
  [.count true unclosedString, .count false unclosedBlock, .push false unclosedBlock,
    .takeAll [unclosedBlock], .push true unclosedString]

theorem Run.conserves_interleaving :
    ∃ s, Run .start interleaving s ∧ s.sink.held = [unclosedString] ∧
      taken interleaving ++ s.sink.held = (pushed interleaving).map Prod.snd ∧
      s.sink.errorCount = errorCount (taken interleaving ++ s.sink.held) := by
  have hstart : Run .start [] (.start : State Bool) := .nil
  have hcounted := hstart.snoc (a := .count true unclosedString) (.count _ rfl)
  have hwarned := (hcounted.snoc (a := .count false unclosedBlock) (.count _ rfl)).snoc
    (a := .push false unclosedBlock) (.push rfl)
  have hrun := (hwarned.snoc (.takeAll _)).snoc (a := .push true unclosedString) (.push rfl)
  obtain ⟨hpushed, -, -, -, hcount, -⟩ := hrun.conserves
  refine ⟨_, hrun, rfl, hpushed, hcount ?_⟩
  intro client
  cases client <;> rfl

end

end SharedSink

end VerilogScaffold
