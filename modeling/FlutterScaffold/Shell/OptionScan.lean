import FlutterScaffold.Text.Byte

/-!
# Scanning for options

A script can have the options among its arguments handed to it one letter at a time. A specification
lists the letters, and a colon behind a letter says that it takes an argument, which is the rest of
its word or the word behind it. Between two steps only a position is kept: the number of the next
word, and how far the word before it has been read.
-/

namespace FlutterScaffold.Shell

/-- Where a scan has got to. -/
structure OptionPosition where
  /-- The number of the next word, counted from one. -/
  next : Nat := 1
  /-- How much of the word before it has been read, when there is more of it. -/
  read : Option Nat := none
  deriving DecidableEq, Repr

/-- What a step of a scan finds. -/
structure OptionFound where
  /-- The letter, a question mark for none that is known, or a colon for one without its argument.
  -/
  letter : Byte
  /-- What goes with the letter. -/
  argument : Option Text := none
  complaint : Option Text := none
  position : OptionPosition
  /-- Whether there are no more options. -/
  isEnd : Bool := false
  deriving DecidableEq, Repr

/-- Whether a specification has a letter, and whether that takes an argument. -/
def optionTakes? (letter : Byte) : Text → Option Bool
  | [] => none
  | b :: rest =>
    if b = letter then some (rest.head? = some (byte ':')) else optionTakes? letter rest

/-- The word that is being read and how much of it has been; none when a new word is to be read. -/
def OptionPosition.underWay? (position : OptionPosition) (words : List Text) :
    Option (Text × Nat) := do
  let n ← position.read
  if position.next < 2 then none
  let word ← words[position.next - 2]?
  if n < word.length then some (word, n) else none

/-- The next option among some words. -/
def scanOption (specification : Text) (position : OptionPosition) (words : List Text) :
    OptionFound :=
  let quiet := specification.head? = some (byte ':')
  let found (word : Text) (n next : Nat) : OptionFound :=
    let letter := word.getD n 0
    let inside : OptionPosition := ⟨next, some (n + 1)⟩
    match if letter = byte ':' then none else optionTakes? letter specification with
    | none =>
      if quiet then { letter := byte '?', argument := some [letter], position := inside }
      else
        { letter := byte '?'
          complaint := some (lit "Illegal option -" ++ [letter])
          position := inside }
    | some false => { letter := letter, argument := some [], position := inside }
    | some true =>
      if n + 1 < word.length then
        { letter := letter, argument := some (word.drop (n + 1)), position := ⟨next, none⟩ }
      else
        match words[next - 1]? with
        | some argument => { letter := letter, argument := argument, position := ⟨next + 1, none⟩ }
        | none =>
          if quiet then { letter := byte ':', argument := some [letter], position := ⟨next, none⟩ }
          else
            { letter := byte '?'
              complaint := some (lit "No arg for -" ++ [letter] ++ lit " option")
              position := ⟨next, none⟩ }
  match position.underWay? words with
  | some (word, n) => found word n position.next
  | none =>
    let ended (next : Nat) : OptionFound :=
      { letter := byte '?', position := ⟨next, none⟩, isEnd := true }
    match words[position.next - 1]? with
    | some (dash :: letter :: letters) =>
      if dash != byte '-' then ended position.next
      else if letter = dash && letters.isEmpty then ended (position.next + 1)
      else found (dash :: letter :: letters) 1 (position.next + 1)
    | _ => ended position.next

end FlutterScaffold.Shell
