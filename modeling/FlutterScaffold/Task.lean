import FlutterScaffold.Disk.File

/-!
# Tasks

A task works on a host and reports diagnostics on the way. It ends with a value or with the one
fault that stopped it; the host and the log are kept in either case.
-/

namespace FlutterScaffold

/-- What a task works on. -/
structure Desk where
  host : Disk.Host
  log : Log := []
  deriving DecidableEq, Repr

/-- Work on a desk that can fail with `ε`. -/
abbrev Task (ε : Type) := ExceptT ε (StateM Desk)

namespace Task

/-- Work on the host alone, with its fault told as one of the task. -/
def onHost {ε δ α : Type} (action : Disk.Action δ α) (fault : δ → ε) : Task ε α := do
  let desk ← get
  let (result, host) := action.run desk.host
  set { desk with host := host }
  match result with
  | .ok value => return value
  | .error e => throw (fault e)

/-- Puts a diagnostic on the log. -/
def report {ε : Type} (d : Diagnostic) : Task ε Unit :=
  modify fun desk => { desk with log := desk.log ++ [d] }

/-- The result of a task and the desk it leaves. -/
def runOn {ε α : Type} (task : Task ε α) (desk : Desk) : Except ε α × Desk := task.run desk

end Task

end FlutterScaffold
