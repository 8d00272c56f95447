import FlutterScaffold.Text.Byte

/-!
# Patterns

A pattern fits texts: a star fits any text, a question mark any byte, brackets one of the bytes they
list, and any other byte itself. A quoted byte has no such meaning. Which bytes of a value are taken
away by a pattern at one of its ends is decided by trying its beginnings or ends in order of length.
-/

namespace FlutterScaffold.Shell

/-- A byte that remembers whether it was quoted. -/
structure Glyph where
  byte : Byte
  quoted : Bool
  deriving DecidableEq, Repr

namespace Glyph

/-- A text all of whose bytes are quoted, or none. -/
def ofText (quoted : Bool) (t : Text) : List Glyph := t.map fun b => ⟨b, quoted⟩

/-- The bytes of some glyphs. -/
def toText (glyphs : List Glyph) : Text := glyphs.map (·.byte)

/-- Whether a glyph is a certain character and unquoted. -/
def isPlain (c : Char) (g : Glyph) : Bool := !g.quoted && g.byte == FlutterScaffold.byte c

end Glyph

/-- The bytes that brackets list: those between two bounds, or a class with a name. -/
inductive Member where
  | between (low high : Byte)
  | named (name : Text)
  deriving DecidableEq, Repr

/-- One item of a pattern. -/
inductive Item where
  | byte (b : Byte)
  | anyByte
  | anyText
  | oneOf (members : List Member) (negated : Bool)
  deriving DecidableEq, Repr

/-- A pattern, as its items. -/
abbrev Pattern := List Item

namespace Member

/-- Bytes that are printed with ink. -/
def isGraphic (b : Byte) : Bool := 33 ≤ b && b ≤ 126

/-- Whether a byte belongs to a class with a name. -/
def inClass (name : Text) (b : Byte) : Bool :=
  if name = lit "alpha" then Byte.isUpper b || Byte.isLower b
  else if name = lit "digit" then Byte.isDigit b
  else if name = lit "alnum" then Byte.isAlnum b
  else if name = lit "upper" then Byte.isUpper b
  else if name = lit "lower" then Byte.isLower b
  else if name = lit "space" then Byte.isSpace b
  else if name = lit "blank" then Byte.isBlank b
  else if name = lit "punct" then isGraphic b && !Byte.isAlnum b
  else if name = lit "graph" then isGraphic b
  else if name = lit "print" then isGraphic b || b == 32
  else if name = lit "cntrl" then b < 32 || b == 127
  else if name = lit "xdigit" then
    Byte.isDigit b || 65 ≤ b && b ≤ 70 || 97 ≤ b && b ≤ 102
  else false

/-- Whether a byte is among the listed ones. -/
def holds (b : Byte) : Member → Bool
  | between low high => low ≤ b && b ≤ high
  | named name => inClass name b

end Member

/-- The class name at the start of brackets inside of brackets, and how many glyphs it takes. -/
def classOf? (glyphs : List Glyph) : Option (Text × Nat) :=
  match glyphs with
  | a :: b :: rest =>
    if a.isPlain '[' && b.byte == byte ':' then
      let name := Glyph.toText (rest.takeWhile fun g => Byte.isLower g.byte)
      let behind := Glyph.toText ((rest.drop name.length).take 2)
      if behind = lit ":]" then some (name, name.length + 4) else none
    else none
  | _ => none

/-- The members of brackets, and how many glyphs they take with the closing bracket. A closing
bracket that comes first is a member; `skip` glyphs have been dealt with. -/
def membersFrom (first : Bool) (skip : Nat) : List Glyph → Option (List Member × Nat)
  | [] => none
  | g :: rest =>
    match skip with
    | skip + 1 => (membersFrom false skip rest).map fun (members, n) => (members, n + 1)
    | 0 =>
      if g.isPlain ']' && !first then some ([], 1)
      else
        let (member, taken) : Member × Nat :=
          match classOf? (g :: rest) with
          | some (name, n) => (.named name, n - 1)
          | none =>
            match rest with
            | dash :: high :: _ =>
              if dash.isPlain '-' && !high.isPlain ']' then (.between g.byte high.byte, 2)
              else (.between g.byte g.byte, 0)
            | _ => (.between g.byte g.byte, 0)
        (membersFrom false taken rest).map fun (members, n) => (member :: members, n + 1)

/-- The item that brackets spell, told from what follows the opening one, and how many glyphs it
takes. -/
def brackets? (glyphs : List Glyph) : Option (Item × Nat) :=
  let negated := glyphs.head?.any (·.isPlain '!')
  (membersFrom true 0 (if negated then glyphs.tail else glyphs)).map fun (members, n) =>
    (.oneOf members negated, n + (if negated then 1 else 0))

/-- The pattern that glyphs spell; `skip` glyphs have been dealt with. -/
def patternFrom (skip : Nat) : List Glyph → Pattern
  | [] => []
  | g :: rest =>
    match skip with
    | skip + 1 => patternFrom skip rest
    | 0 =>
      if g.isPlain '*' then .anyText :: patternFrom 0 rest
      else if g.isPlain '?' then .anyByte :: patternFrom 0 rest
      else if g.isPlain '\\' then
        match rest with
        | [] => [.byte g.byte]
        | next :: _ => .byte next.byte :: patternFrom 1 rest
      else if g.isPlain '[' then
        match brackets? rest with
        | some (item, n) => item :: patternFrom n rest
        | none => .byte g.byte :: patternFrom 0 rest
      else .byte g.byte :: patternFrom 0 rest

/-- The ends of a text, longest first. -/
def endsOf : Text → List Text
  | [] => [[]]
  | b :: rest => (b :: rest) :: endsOf rest

namespace Pattern

/-- The pattern that glyphs spell. -/
def ofGlyphs (glyphs : List Glyph) : Pattern := patternFrom 0 glyphs

/-- Whether a pattern fits a whole text. -/
def fits : Pattern → Text → Bool
  | [], t => t.isEmpty
  | .anyText :: more, t => (endsOf t).any (fits more)
  | .anyByte :: more, t =>
    match t with
    | [] => false
    | _ :: rest => fits more rest
  | .byte b :: more, t =>
    match t with
    | [] => false
    | c :: rest => b == c && fits more rest
  | .oneOf members negated :: more, t =>
    match t with
    | [] => false
    | c :: rest => members.any (·.holds c) != negated && fits more rest

/-- A value without what the pattern fits at one of its ends. -/
def trim (pattern : Pattern) (atEnd longest : Bool) (value : Text) : Text :=
  let sizes := List.range (value.length + 1)
  let sizes := if longest then sizes.reverse else sizes
  let taken (n : Nat) : Text := if atEnd then value.drop (value.length - n) else value.take n
  match sizes.find? fun n => fits pattern (taken n) with
  | none => value
  | some n => if atEnd then value.take (value.length - n) else value.drop n

/-- Whether glyphs spell anything but a plain text. -/
def isWild (glyphs : List Glyph) : Bool :=
  glyphs.any fun g => g.isPlain '*' || g.isPlain '?' || g.isPlain '['

end Pattern

end FlutterScaffold.Shell
