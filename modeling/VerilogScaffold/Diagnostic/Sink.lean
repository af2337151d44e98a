import VerilogScaffold.Diagnostic.Basic

/-!
# Sinks

A sink collects diagnostics and counts the errors among them. The count is of all errors ever given
to the sink: taking the collected diagnostics out does not lower it.

Giving a diagnostic to a sink is two steps, `count` and then `push`, so that clients who share a
sink may come between them.
-/

namespace VerilogScaffold

/-- Collected diagnostics, and the number of errors met so far. -/
structure Sink where
  held : List Diagnostic
  errorCount : Nat
  deriving DecidableEq

namespace Sink

/-- A sink that has met nothing. -/
def empty : Sink := ⟨[], 0⟩

/-- Counts a diagnostic, if it is an error. -/
def count (s : Sink) (d : Diagnostic) : Sink :=
  if d.severity.isError then { s with errorCount := s.errorCount + 1 } else s

/-- Puts a diagnostic behind those held. -/
def push (s : Sink) (d : Diagnostic) : Sink := { s with held := s.held ++ [d] }

/-- Counts a diagnostic and puts it behind those held. -/
def emit (s : Sink) (d : Diagnostic) : Sink := (s.count d).push d

/-- Whether an error was ever met. -/
def hasErrors (s : Sink) : Bool := 0 < s.errorCount

/-- The diagnostics held, and the sink without them. -/
def takeAll (s : Sink) : List Diagnostic × Sink := (s.held, { s with held := [] })

/-! ## What each operation leaves in the sink -/

@[simp] theorem held_count (s : Sink) (d : Diagnostic) : (s.count d).held = s.held := by
  unfold count
  split <;> rfl

@[simp] theorem held_emit (s : Sink) (d : Diagnostic) : (s.emit d).held = s.held ++ [d] := by
  simp [emit, push]

@[simp] theorem errorCount_emit (s : Sink) (d : Diagnostic) :
    (s.emit d).errorCount = s.errorCount + if d.severity.isError then 1 else 0 := by
  unfold emit push count
  split <;> rfl

/-- A sink holds what it is given behind what it held, in the order in which it is given. -/
theorem held_foldl_emit (s : Sink) (ds : List Diagnostic) :
    (ds.foldl emit s).held = s.held ++ ds := by
  induction ds generalizing s with
  | nil => exact (List.append_nil _).symm
  | cons d ds ih => rw [List.foldl_cons, ih, held_emit, List.append_assoc, List.singleton_append]

end Sink

end VerilogScaffold
