import FlutterScaffold.Text.Byte

/-!
# Concatenation

Texts are shown one after the other as one text. On the way its lines may be numbered, their ends
marked, repeated empty lines dropped and bytes without ink spelled out. A line may reach from one
text into the next, so what is known of the line under way is carried along.
-/

namespace FlutterScaffold.Shell

/-- How a text is shown. -/
structure Display where
  numbered : Bool := false
  /-- Only the lines that are not empty are numbered. -/
  numberedNonempty : Bool := false
  /-- Of several empty lines one is kept. -/
  squeezed : Bool := false
  /-- The ends of lines are marked. -/
  ends : Bool := false
  /-- Tabs are spelled out. -/
  tabs : Bool := false
  /-- Other bytes without ink are spelled out. -/
  controls : Bool := false
  deriving DecidableEq, Repr

/-- Where a text that is shown has got to. -/
structure Shown where
  /-- How many lines have been numbered. -/
  lines : Nat := 0
  atStart : Bool := true
  /-- How many empty lines there are just before. -/
  empties : Nat := 0
  deriving DecidableEq, Repr

namespace Display

/-- A display by the letters of options. -/
def ofLetters (letters : Text) : Display :=
  let has (of : String) : Bool := letters.any (lit of).contains
  { numbered := has "n"
    numberedNonempty := has "b"
    squeezed := has "s"
    ends := has "EAe"
    tabs := has "TAt"
    controls := has "vAet" }

/-- A byte below 128 as it is spelled. -/
def spellLow (b : Byte) : Text :=
  if b = 127 then lit "^?" else if b < 32 then [byte '^', b + 64] else [b]

/-- A byte as it is shown. -/
def spell (d : Display) (b : Byte) : Text :=
  if b = 9 then if d.tabs then lit "^I" else [b]
  else if !d.controls then [b]
  else if b < 128 then spellLow b
  else lit "M-" ++ spellLow (b - 128)

/-- The number of a line, with blanks before it up to a width of six. -/
def number (n : Nat) : Text :=
  let digits := lit (toString n)
  List.replicate (6 - digits.length) 32 ++ digits ++ [9]

/-- Shows one byte. -/
def step (d : Display) (state : Text × Shown) (b : Byte) : Text × Shown :=
  let (out, s) := state
  let isEmpty := s.atStart && b = Byte.newline
  if isEmpty && d.squeezed && s.empties ≥ 1 then (out, { s with empties := s.empties + 1 })
  else
    let counts := s.atStart && (if d.numberedNonempty then !isEmpty else d.numbered)
    let mark := if counts then number (s.lines + 1) else []
    let shown := if b = Byte.newline then (if d.ends then lit "$\n" else [b]) else d.spell b
    ((mark ++ shown).reverse ++ out,
      { lines := if counts then s.lines + 1 else s.lines
        atStart := b = Byte.newline
        empties := if isEmpty then s.empties + 1 else 0 })

/-- Shows one more text. -/
def apply (d : Display) (s : Shown) (t : Text) : Text × Shown :=
  let (out, s) := t.foldl d.step ([], s)
  (out.reverse, s)

end Display

end FlutterScaffold.Shell
