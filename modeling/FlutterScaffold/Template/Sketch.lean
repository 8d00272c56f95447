import FlutterScaffold.Template.Expansion
import FlutterScaffold.Path.Basic

/-!
# Sketches of templates

The templates of this library are sketched as lines of source text. The braces of the generated
code, those of tokens included, are sketched as `⟦` and `⟧`, so that a sketch is an ordinary string.
-/

namespace FlutterScaffold

/-- A file to be made: its path and its bytes, both with tokens. -/
structure Template where
  path : Path
  body : Text
  deriving DecidableEq, Repr

namespace Template

/-- A template with its tokens replaced. -/
def fill (vars : Vars) (template : Template) : Template where
  path := expand vars template.path
  body := expand vars template.body

/-- The bytes of one sketched line. -/
def sketchLine (line : String) : Text :=
  line.toList.flatMap fun c =>
    if c = '⟦' then [byte '{'] else if c = '⟧' then [byte '}'] else String.utf8EncodeChar c

theorem sketchLine_ofList (cs : List Char) : sketchLine (String.ofList cs) = cs.flatMap fun c =>
    if c = '⟦' then [byte '{'] else if c = '⟧' then [byte '}'] else String.utf8EncodeChar c := by
  rw [sketchLine, String.toList_ofList]

/-- The bytes of sketched lines, each ended by a newline. -/
def sketch (lines : List String) : Text :=
  lines.flatMap fun line => sketchLine line ++ [Byte.newline]

end Template

end FlutterScaffold
