import FlutterScaffold.Shell.Decimal

/-!
# Formatted output of the shell

The two printing commands give backslash escapes a meaning: letters for the control bytes, and octal
digits for any byte. A format holds directives, each of which prints an argument as text or as a
number; it is used again and again while arguments are left, and an argument that is missing counts
as empty or zero. What is wrong with an argument is told beside the output.
-/

namespace FlutterScaffold.Shell

/-! ## Escapes -/

/-- The byte that a letter stands for behind a backslash. -/
def controlByte? (b : Byte) : Option Byte :=
  [('a', 7), ('b', 8), ('e', 27), ('f', 12), ('n', 10), ('r', 13), ('t', 9), ('v', 11),
    ('\\', 92)].findSome? fun (letter, code) => if b = byte letter then some code else none

/-- The byte that an escape stands for, told from what follows the backslash, and how many bytes the
escape takes there. A backslash that starts no escape stands for itself. -/
def escapeAt (rest : Text) : Byte × Nat :=
  match rest.head?.bind controlByte? with
  | some c => (c, 1)
  | none =>
    let digits := (rest.take 3).takeWhile (isDigitIn 8)
    if digits.isEmpty then (Byte.backslash, 0) else (UInt8.ofNat (valueIn 8 digits), digits.length)

/-- The same in an argument, where a zero may come before the octal digits. -/
def argumentEscapeAt (rest : Text) : Byte × Nat :=
  if rest.head? = some (byte '0') && rest.tail.head?.any (isDigitIn 8) then
    let (c, n) := escapeAt rest.tail
    (c, n + 1)
  else escapeAt rest

/-- An argument with its escapes carried out, up to an escape that ends all output; whether there
was one is told beside it. `skip` bytes have been dealt with. -/
def unescapeFrom (skip : Nat) : Text → Text × Bool
  | [] => ([], false)
  | b :: rest =>
    match skip with
    | skip + 1 => unescapeFrom skip rest
    | 0 =>
      if b = Byte.backslash && rest.head? = some (byte 'c') then ([], true)
      else
        let (c, n) := if b = Byte.backslash then argumentEscapeAt rest else (b, 0)
        let (t, stopped) := unescapeFrom n rest
        (c :: t, stopped)

/-- What `echo` prints: its arguments with a space between them and a newline behind them, which an
option or an escape can take away. -/
def echo (arguments : List Text) : Text :=
  let bare := arguments.head? = some (lit "-n")
  let (t, stopped) :=
    unescapeFrom 0 (List.intercalate (lit " ") (if bare then arguments.tail else arguments))
  if bare || stopped then t else t ++ [Byte.newline]

/-! ## Directives -/

/-- How the text of a directive is laid out. -/
structure Layout where
  left : Bool := false
  plus : Bool := false
  space : Bool := false
  alternate : Bool := false
  zero : Bool := false
  width : Nat := 0
  precision : Option Nat := none
  deriving DecidableEq, Repr

namespace Layout

/-- A layout with the meaning of some flags. -/
def ofFlags (flags : Text) : Layout where
  left := flags.contains (byte '-')
  plus := flags.contains (byte '+')
  space := flags.contains (byte ' ')
  alternate := flags.contains (byte '#')
  zero := flags.contains (byte '0')

/-- A layout with a width, of which a negative one asks for the left side. -/
def withWidth (layout : Layout) (width : Int) : Layout :=
  { layout with width := width.natAbs, left := layout.left || width < 0 }

/-- A layout with a precision, of which a negative one counts as none. -/
def withPrecision (layout : Layout) (precision : Int) : Layout :=
  { layout with precision := if precision < 0 then none else some precision.toNat }

/-- Text on its side of the width. -/
def pad (layout : Layout) (t : Text) : Text :=
  let blanks := List.replicate (layout.width - t.length) 32
  if layout.left then t ++ blanks else blanks ++ t

/-- A number behind its sign on its side of the width; zeros may fill the room between them. -/
def padNumber (layout : Layout) (zeros : Bool) (sign digits : Text) : Text :=
  let room := layout.width - (sign.length + digits.length)
  if layout.zero && zeros && !layout.left then
    sign ++ List.replicate room (byte '0') ++ digits
  else layout.pad (sign ++ digits)

/-- The sign of a number. -/
def sign (layout : Layout) (negative : Bool) : Text :=
  if negative then [byte '-'] else if layout.plus then [byte '+']
  else if layout.space then [32] else []

/-- A text cut to the precision. -/
def text (layout : Layout) (t : Text) : Text :=
  layout.pad <|
    match layout.precision with
    | none => t
    | some n => t.take n

/-- Digits with zeros before them up to the precision; zero has no digits when none is asked for. -/
def digits (layout : Layout) (n : Nat) (digits : Text) : Text :=
  if n = 0 && layout.precision = some 0 then []
  else List.replicate (layout.precision.getD 0 - digits.length) (byte '0') ++ digits

/-- An integer in decimal digits. -/
def signed (layout : Layout) (n : Int) : Text :=
  layout.padNumber (layout.precision = none) (layout.sign (n < 0))
    (layout.digits n.natAbs (lit (toString n.natAbs)))

/-- A natural number in the base of a conversion. -/
def unsigned (layout : Layout) (conversion : Byte) (n : Nat) : Text :=
  let base := if conversion = byte 'o' then 8 else if conversion = byte 'u' then 10 else 16
  let spelled := lit (String.ofList (Nat.toDigits base n))
  let spelled := if conversion = byte 'X' then spelled.map Byte.toUpper else spelled
  let spelled := layout.digits n spelled
  let mark :=
    if layout.alternate && base = 16 && n != 0 then [byte '0', conversion]
    else if layout.alternate && base = 8 && spelled.head? != some (byte '0') then [byte '0']
    else []
  layout.padNumber (layout.precision = none) mark spelled

/-- A floating-point number. -/
def floating (layout : Layout) (conversion : Byte) (value : Floating) : Text :=
  let t := value.text (Byte.toLower conversion) layout.alternate layout.precision
  let t := if Byte.isUpper conversion then t.map Byte.toUpper else t
  let isFinite :=
    match value with
    | .finite .. => true
    | _ => false
  layout.padNumber isFinite (layout.sign value.isNegative) t

end Layout

/-! ## Formats -/

/-- The state of a formatted output. -/
structure Printing where
  /-- The arguments that are left. -/
  arguments : List Text
  /-- What has been printed, last piece first. -/
  printed : List Text := []
  /-- What was wrong with arguments. -/
  complaints : List Text := []
  /-- Whether the output ends early, and the status if that is by a mistake. -/
  stopped : Option Nat := none
  deriving DecidableEq, Repr

namespace Printing

/-- The next argument, and the state without it. -/
def take (s : Printing) : Option Text × Printing :=
  (s.arguments.head?, { s with arguments := s.arguments.tail })

/-- The state with something wrong about an argument. -/
def complain (s : Printing) (argument : Text) (complaint : String) : Printing :=
  { s with complaints := s.complaints ++ [argument ++ lit ": " ++ lit complaint] }

/-- The state with more output. -/
def print (s : Printing) (t : Text) : Printing := { s with printed := t :: s.printed }

/-- All that has been printed. -/
def output (s : Printing) : Text := s.printed.reverse.flatten

/-- The end of the output by a mistake. -/
def fail (s : Printing) (complaint : Text) : Printing :=
  { s with complaints := s.complaints ++ [complaint], stopped := some 2 }

/-- Tells of an argument that is no number, not wholly one, or out of range. -/
def judge (s : Printing) (argument : Text) (size : Option Nat) (inRange : Bool) : Printing :=
  match size with
  | none => if argument.isEmpty then s else s.complain argument "expected numeric value"
  | some size =>
    if size < argument.length then s.complain argument "not completely converted"
    else if !inRange then s.complain argument "Numerical result out of range"
    else s

/-- The byte behind a quote counts as a number. -/
def quotedByte? (argument : Text) : Option Byte :=
  match argument with
  | mark :: rest =>
    if mark = Byte.quote || mark = Byte.doubleQuote then some (rest.headD 0) else none
  | [] => none

/-- The next argument as an integer between two bounds. -/
def takeInteger (low high : Int) (s : Printing) : Int × Printing :=
  match s.take with
  | (none, s) => (0, s)
  | (some argument, s) =>
    match quotedByte? argument with
    | some b => (b.toNat, s)
    | none =>
      match integerAt? true argument with
      | none => (0, s.judge argument none true)
      | some (n, size) =>
        (max low (min n high), s.judge argument (some size) (low ≤ n && n ≤ high))

/-- The next argument as an integer with a sign. -/
def takeSigned : Printing → Int × Printing :=
  takeInteger Int64.minValue.toInt Int64.maxValue.toInt

/-- The next argument as a natural number; a negative one is counted from the end of the words. -/
def takeUnsigned (s : Printing) : Nat × Printing :=
  let (n, s) := takeInteger (-0xffffffffffffffff) 0xffffffffffffffff s
  ((n % 0x10000000000000000).toNat, s)

/-- The next argument as a floating-point number. -/
def takeFloating (s : Printing) : Floating × Printing :=
  match s.take with
  | (none, s) => (.zero, s)
  | (some argument, s) =>
    match quotedByte? argument with
    | some b => ((Floating.ofFraction false b.toNat 1).1, s)
    | none =>
      match floatingAt? argument with
      | none => (.zero, s.judge argument none true)
      | some (value, inRange, size) => (value, s.judge argument (some size) inRange)

/-- A width or precision at the start of a text, which may be taken from an argument, and how many
bytes it takes. -/
def takeSize (t : Text) (s : Printing) : Int × Nat × Printing :=
  if t.head? = some (byte '*') then
    let (n, s) := s.takeSigned
    ((Int32.ofInt n).toInt, 1, s)
  else
    let digits := t.takeWhile Byte.isDigit
    (valueIn 10 digits, digits.length, s)

/-- The layout at the start of a text, and how many bytes it takes. -/
def takeLayout (t : Text) (s : Printing) : Layout × Nat × Printing :=
  let flags := t.takeWhile fun b => (lit "#-+ 0").contains b
  let (width, n, s) := s.takeSize (t.drop flags.length)
  let layout := (Layout.ofFlags flags).withWidth width
  let size := flags.length + n
  if (t.drop size).head? = some (byte '.') then
    let (precision, m, s) := s.takeSize (t.drop (size + 1))
    (layout.withPrecision precision, size + 1 + m, s)
  else (layout, size, s)

/-- Prints the next argument by a conversion; none when there is no such conversion. -/
def convert (layout : Layout) (conversion : Byte) (s : Printing) : Option Printing :=
  if conversion = byte 's' then
    let (argument, s) := s.take
    some (s.print (layout.text (argument.getD [])))
  else if conversion = byte 'b' then
    let (argument, s) := s.take
    let (t, stopped) := unescapeFrom 0 (argument.getD [])
    let s := s.print (layout.text t)
    some (if stopped then { s with stopped := some 0 } else s)
  else if conversion = byte 'c' then
    let (argument, s) := s.take
    some (s.print (layout.pad [(argument.getD []).headD 0]))
  else if conversion = byte 'd' || conversion = byte 'i' then
    let (n, s) := s.takeSigned
    some (s.print (layout.signed n))
  else if (lit "ouxX").contains conversion then
    let (n, s) := s.takeUnsigned
    some (s.print (layout.unsigned conversion n))
  else if (lit "eEfFgG").contains conversion then
    let (value, s) := s.takeFloating
    some (s.print (layout.floating conversion value))
  else none

/-- Carries out the directive behind a percent sign; how many bytes it takes is told beside it. -/
def directive (rest : Text) (s : Printing) : Printing × Nat :=
  let (layout, size, s) := s.takeLayout rest
  match rest.drop size with
  | [] => (s.fail (lit "missing format character"), size)
  | conversion :: _ =>
    match s.convert layout conversion with
    | some s => (s, size + 1)
    | none =>
      (s.fail (lit "%" ++ rest.take (size + 1) ++ lit ": invalid directive"), size + 1)

/-- One pass over a format; `skip` bytes have been dealt with. -/
def pass (skip : Nat) (s : Printing) : Text → Printing
  | [] => s
  | b :: rest =>
    match skip with
    | skip + 1 => pass skip s rest
    | 0 =>
      if s.stopped.isSome then s
      else if b = Byte.backslash then
        let (c, n) := escapeAt rest
        pass n (s.print [c]) rest
      else if b != byte '%' then pass 0 (s.print [b]) rest
      else if rest.head? = some (byte '%') then pass 1 (s.print [b]) rest
      else
        let (s, n) := s.directive rest
        pass n s rest

/-- Passes over a format as long as each takes arguments and leaves some. -/
def passes (format : Text) : Nat → Printing → Printing
  | 0, s => s
  | fuel + 1, s =>
    let next := pass 0 s format
    if next.stopped.isSome || next.arguments.isEmpty || next.arguments.length = s.arguments.length
    then next
    else passes format fuel next

/-- The status at the end. -/
def status (s : Printing) : Nat := s.stopped.getD (if s.complaints.isEmpty then 0 else 1)

end Printing

/-- What `printf` does with a format and its arguments. -/
def printf (format : Text) (arguments : List Text) : Printing :=
  Printing.passes format (arguments.length + 1) { arguments := arguments }

end FlutterScaffold.Shell
