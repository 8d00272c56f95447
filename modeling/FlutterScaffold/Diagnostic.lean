import FlutterScaffold.Text.Byte

/-!
# Diagnostics

What a command has to say about its work is a log of diagnostics in the order they arose. A
diagnostic is printed on one line, with the file and line it refers to in front when they are known.
-/

namespace FlutterScaffold

/-- How grave a diagnostic is. -/
inductive Severity where
  | note
  | warning
  | error
  deriving DecidableEq, Repr

/-- The word for a severity. -/
def Severity.word : Severity → Text
  | .note => lit "note"
  | .warning => lit "warning"
  | .error => lit "error"

/-- A message, with the place it refers to. -/
structure Diagnostic where
  severity : Severity
  message : Text
  /-- The file the message refers to; empty when there is none. -/
  path : Text := []
  /-- The line within the file, counted from one; 0 when unknown. -/
  line : Nat := 0
  deriving DecidableEq, Repr

namespace Diagnostic

/-- The place in front of a message. -/
def place (d : Diagnostic) : Text :=
  if d.path.isEmpty then []
  else if d.line = 0 then d.path ++ lit ": "
  else d.path ++ lit ":" ++ lit (toString d.line) ++ lit ": "

/-- A diagnostic as a printed line. -/
def render (d : Diagnostic) : Text :=
  d.place ++ d.severity.word ++ lit ": " ++ d.message ++ [Byte.newline]

end Diagnostic

/-- Diagnostics in the order they arose. -/
abbrev Log := List Diagnostic

namespace Log

/-- How many diagnostics of a severity a log holds. -/
def count (severity : Severity) (log : Log) : Nat := log.countP (·.severity = severity)

/-- A log as printed; notes are left out when `quiet` is set. -/
def render (quiet : Bool) (log : Log) : Text :=
  (log.filter fun d => !quiet || d.severity != .note).flatMap Diagnostic.render

end Log

end FlutterScaffold
