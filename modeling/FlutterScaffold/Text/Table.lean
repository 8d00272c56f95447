import FlutterScaffold.Text.Byte

/-!
# Words in a sorted table

A table whose words stand in byte order is searched by halving: the middle word of the stretch that
is left tells in which half a word has to stand. No other words are looked at, so an answer is good
only where the table is in order.
-/

namespace FlutterScaffold.Text

/-- Byte order: the first byte in which two texts differ decides, and a text stands before those it
is the beginning of. -/
def precedes (s t : Text) : Bool := List.lex s t (· < ·)

/-- The rest of a table from its first word on that does not stand before `word`. That one is among
the first `count` words or right behind them; each of `fuel` steps halves their number. -/
def lowerBound (word : Text) : Nat → Nat → List Text → List Text
  | 0, _, table => table
  | fuel + 1, count, table =>
    if count = 0 then table
    else
      match table.drop (count / 2) with
      | [] => table
      | middle :: later =>
        if precedes middle word then lowerBound word fuel (count - count / 2 - 1) later
        else lowerBound word fuel (count / 2) table

/-- Whether a table in byte order holds a word. -/
def binarySearch (table : List Text) (word : Text) : Bool :=
  match lowerBound word table.length table.length table with
  | [] => false
  | entry :: _ => !precedes word entry

end FlutterScaffold.Text
