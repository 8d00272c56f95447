import FlutterScaffold.Text.Line

/-!
# The lines a registry is recognized by

Two shapes of Dart declaration are looked for line by line: an import in single quotes at the start
of a line, and a string constant whose name ends in `Name` anywhere in a line. A pattern takes a
text and gives what follows the match at its head. Of several matches the last one counts.
-/

namespace FlutterScaffold.Registry

open FlutterScaffold.Text (after?)

/-- A pattern gives what follows the match at the head of a text. -/
abbrev Pattern := Text → Option Text

/-- Any number of spaces. -/
def skipSpace (t : Text) : Text := t.dropWhile Byte.isSpace

/-- One or more spaces. -/
def spaces? : Pattern
  | [] => none
  | b :: rest => if Byte.isSpace b then some (skipSpace rest) else none

/-- A word and the spaces that must follow it. -/
def keyword? (word : String) : Pattern := fun t => (after? (lit word) t).bind spaces?

/-- Everything up to a byte and the byte itself. -/
def through? (stop : Byte) : Pattern := fun t => after? [stop] (t.dropWhile (· != stop))

/-- `import`, a path in single quotes that is not empty, and all up to a semicolon, after any
spaces. -/
def import? : Pattern := fun t => do
  let t ← keyword? "import" (skipSpace t)
  let t ← after? [Byte.quote] t
  if t.head? = some Byte.quote then none
  else through? (byte ';') (← through? Byte.quote t)

/-- Identifiers that end in `Name` and have something before it. -/
def isNameConstant (word : Text) : Bool :=
  word.head?.any Byte.isIdentifierStart && (lit "Name").isSuffixOf word && 4 < word.length

/-- `static const String xName = '...';` with spaces where Dart allows them. -/
def nameConstant? : Pattern := fun t => do
  let t ← keyword? "static" t
  let t ← keyword? "const" t
  let t ← keyword? "String" t
  if isNameConstant (t.takeWhile Byte.isIdentifier) then
    let t ← after? (lit "=") (skipSpace (t.dropWhile Byte.isIdentifier))
    let t ← after? [Byte.quote] (skipSpace t)
    let t ← through? Byte.quote t
    after? (lit ";") (skipSpace t)
  else none

/-- Where the match at the head of a text ends. -/
def headEnd? (p : Pattern) (t : Text) : Option Nat := (p t).map fun rest => t.length - rest.length

/-- Where the last match ends, when matches are looked for from the left and do not overlap;
`skip` bytes belong to the match before. -/
def lastEnd? (p : Pattern) (skip : Nat) : Text → Option Nat
  | [] => none
  | b :: rest =>
    match skip with
    | skip + 1 => (lastEnd? p skip rest).map (· + 1)
    | 0 =>
      match headEnd? p (b :: rest) with
      | none => (lastEnd? p 0 rest).map (· + 1)
      | some n => some (((lastEnd? p (n - 1) rest).map (· + 1)).getD n)

/-- The last answer that a question about single lines gets, as an offset of the whole text. -/
def lastOfLines? (endOf? : Text → Option Nat) : List Text → Option Nat
  | [] => none
  | line :: more =>
    ((lastOfLines? endOf? more).map (· + (line.length + 1))).or (endOf? line)

/-- Where the last import of a text ends. -/
def importEnd? (t : Text) : Option Nat := lastOfLines? (headEnd? import?) (Text.lines t)

/-- Where the last name constant of a text ends. -/
def nameConstantEnd? (t : Text) : Option Nat :=
  lastOfLines? (lastEnd? nameConstant? 0) (Text.lines t)

end FlutterScaffold.Registry
