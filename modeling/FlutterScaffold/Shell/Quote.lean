import FlutterScaffold.Text.Byte

/-!
# Quoting for the shell

A program is started through a command line, so its arguments have to survive the shell. Each is
written between double quotes with a backslash before the four bytes that keep a meaning there. The
program's complaints are merged into its output, and it runs in a directory of its own when one is
given.
-/

namespace FlutterScaffold.Shell

/-- Bytes that keep a meaning between double quotes. -/
def isSpecial (b : Byte) : Bool :=
  b == Byte.backslash || b == Byte.doubleQuote || b == byte '$' || b == 96

/-- A text as one word of a command line. -/
def quoted (text : Text) : Text :=
  Byte.doubleQuote ::
    (text.flatMap fun b => if isSpecial b then [Byte.backslash, b] else [b]) ++ [Byte.doubleQuote]

/-- The command line that runs a program, with its output and complaints merged. -/
def commandLine (arguments : List Text) (directory : Option Text) : Text :=
  (match directory with
    | none => []
    | some directory => lit "cd " ++ quoted directory ++ lit " && ") ++
    List.intercalate (lit " ") (arguments.map quoted) ++ lit " 2>&1"

end FlutterScaffold.Shell
