import FlutterScaffold.Shell.Pattern

/-!
# Fields

The words of a command are expanded to fields. What stands in the word itself stays in one field;
the value of an unquoted expansion is cut at separators, of which those that are spaces count as one
however many there are, and any other ends a field by itself, even an empty one.
-/

namespace FlutterScaffold.Shell

/-- Fields under way. -/
structure Fields where
  /-- The finished fields, last first. -/
  finished : List (List Glyph) := []
  /-- The field that is being written, last glyph first. -/
  current : Option (List Glyph) := none
  /-- Whether spaces have just ended a field, so that a separator behind them ends no other. -/
  spaced : Bool := false
  deriving DecidableEq, Repr

namespace Fields

/-- Ends the field under way. -/
def close (f : Fields) : Fields :=
  match f.current with
  | none => f
  | some glyphs => { finished := glyphs.reverse :: f.finished }

/-- Goes on with the field under way. -/
def add (f : Fields) (quoted : Bool) (t : Text) : Fields :=
  { f with
    current := some ((Glyph.ofText quoted t).reverse ++ f.current.getD [])
    spaced := false }

/-- Goes on with one byte of a value. -/
def addByte (separators : Text) (f : Fields) (b : Byte) : Fields :=
  if !separators.contains b then f.add false [b]
  else if b = 32 || b = 9 || b = Byte.newline then
    if f.current.isSome then { f.close with spaced := true } else f
  else if f.current.isSome then f.close
  else if f.spaced then { f with spaced := false }
  else { f with finished := [] :: f.finished }

/-- Goes on with a value that is cut at separators. -/
def addSplit (separators : Text) (f : Fields) (t : Text) : Fields :=
  t.foldl (addByte separators) f

/-- All fields, in order. -/
def toList (f : Fields) : List (List Glyph) := f.close.finished.reverse

/-- The glyphs of all fields, with a space between two fields. -/
def joined (f : Fields) : List Glyph := List.intercalate [⟨32, true⟩] f.toList

end Fields

end FlutterScaffold.Shell
