import FlutterScaffold.Shell.Pattern

/-!
# Lines of input

A line is read up to its newline; unless it is taken as it is, a backslash quotes the byte behind it
and joins two lines at a newline. The line is then cut to as many fields as there are variables to
take them: a separator ends a field, spaces among the separators count as one with whatever
separator they stand beside, and the last field takes all that is left.
-/

namespace FlutterScaffold.Shell

/-- A line at the start of an input, the rest of the input, and whether the line is ended by a
newline. -/
def inputLine (raw : Bool) : Text → List Glyph × Text × Bool
  | [] => ([], [], false)
  | [b] => if b = Byte.newline then ([], [], true) else ([⟨b, false⟩], [], false)
  | b :: c :: rest =>
    if b = Byte.newline then ([], c :: rest, true)
    else if b = 0 then inputLine raw (c :: rest)
    else if b = Byte.backslash && !raw then
      let (line, behind, ended) := inputLine raw rest
      (if c = Byte.newline then line else ⟨c, true⟩ :: line, behind, ended)
    else
      let (line, behind, ended) := inputLine raw (c :: rest)
      (⟨b, false⟩ :: line, behind, ended)

/-- A line that is being cut. -/
structure Cutting where
  /-- How many fields may still be ended. -/
  room : Nat
  /-- The finished fields, last first. -/
  finished : List Text := []
  /-- The field under way, last byte first. -/
  current : Text := []
  /-- Whether spaces have just ended a field. -/
  spaced : Bool := false
  /-- How long the last field is without the separators at its end. -/
  kept : Option Nat := none
  deriving DecidableEq, Repr

namespace Cutting

/-- The state with one more byte in its field. -/
def add (s : Cutting) (b : Byte) : Cutting := { s with current := b :: s.current, spaced := false }

/-- Goes on with a byte of the last field. -/
def addLast (separator space : Bool) (s : Cutting) (b : Byte) : Cutting :=
  let kept :=
    if space then some (s.kept.getD s.current.length)
    else if separator && s.spaced then s.kept
    else none
  { s with current := b :: s.current, kept := kept, spaced := space && s.spaced }

/-- Goes on with a byte. -/
def step (separators : Text) (s : Cutting) (g : Glyph) : Cutting :=
  let separator := separators.contains g.byte
  let space := separator && (g.byte = 32 || g.byte = 9 || g.byte = Byte.newline)
  if g.quoted then s.add g.byte
  else if s.room = 0 then s.addLast separator space g.byte
  else if s.spaced && separator then { s with spaced := space }
  else if !separator then s.add g.byte
  else if space && s.current.isEmpty then s
  else if s.room = 1 then
    { s with
      room := 0
      current := g.byte :: s.current
      kept := some s.current.length
      spaced := space }
  else
    { s with
      room := s.room - 1
      finished := s.current.reverse :: s.finished
      current := []
      spaced := space }

/-- All fields, in order. -/
def toList (s : Cutting) : List Text :=
  let last := s.current.reverse
  (s.kept.elim last last.take :: s.finished).reverse

end Cutting

/-- The fields of a line, no more than there is room for. -/
def inputFields (separators : Text) (room : Nat) (line : List Glyph) : List Text :=
  (line.foldl (Cutting.step separators) { room }).toList

end FlutterScaffold.Shell
