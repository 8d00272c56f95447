import FlutterScaffold.Text.Byte

/-!
# Integers in text

An integer is spelled by digits behind an optional sign and optional spaces. Where several bases are
allowed, digits behind `0x` are hexadecimal, those behind `0b` binary, and digits behind any other
zero octal. How far the spelling reaches is told with the value, since some readers demand that
nothing follows it.
-/

namespace FlutterScaffold.Shell

/-- The value of a digit in any base up to sixteen; any other byte is worth more than a digit. -/
def digitValue (b : Byte) : Nat :=
  if Byte.isDigit b then b.toNat - 48
  else if 97 ≤ b && b ≤ 102 then b.toNat - 87
  else if 65 ≤ b && b ≤ 70 then b.toNat - 55
  else 16

/-- Whether a byte is a digit in a base. -/
def isDigitIn (base : Nat) (b : Byte) : Bool := digitValue b < base

/-- The value of digits in a base. -/
def valueIn (base : Nat) (digits : Text) : Nat :=
  digits.foldl (fun n b => n * base + digitValue b) 0

/-- The number at the start of a text in a base, and how many bytes it takes. -/
def naturalIn? (base : Nat) (t : Text) : Option (Nat × Nat) :=
  let digits := t.takeWhile (isDigitIn base)
  if digits.isEmpty then none else some (valueIn base digits, digits.length)

/-- The number at the start of a text, and how many bytes it takes. -/
def naturalAt? (anyBase : Bool) (t : Text) : Option (Nat × Nat) :=
  match t with
  | zero :: mark :: rest =>
    if anyBase && zero = byte '0' then
      let marked :=
        if mark = byte 'x' || mark = byte 'X' then naturalIn? 16 rest
        else if mark = byte 'b' || mark = byte 'B' then naturalIn? 2 rest
        else none
      match marked with
      | some (n, size) => some (n, size + 2)
      | none => naturalIn? 8 t
    else naturalIn? 10 t
  | _ => naturalIn? 10 t

/-- The integer at the start of a text, and how many bytes it takes with its sign and the spaces
before it. -/
def integerAt? (anyBase : Bool) (t : Text) : Option (Int × Nat) :=
  let spaces := (t.takeWhile Byte.isSpace).length
  let rest := t.drop spaces
  let negative := rest.head? = some (byte '-')
  let signed := negative || rest.head? = some (byte '+')
  (naturalAt? anyBase (if signed then rest.tail else rest)).map fun (n, size) =>
    (if negative then -(n : Int) else n, spaces + (if signed then 1 else 0) + size)

/-- The integer that a whole text spells, up to spaces behind it. -/
def integer? (anyBase : Bool) (t : Text) : Option Int := do
  let (n, size) ← integerAt? anyBase t
  if (t.drop size).all Byte.isSpace then return n else none

/-- The number that a text of decimal digits spells. -/
def natural? (t : Text) : Option Nat :=
  if !t.isEmpty && t.all Byte.isDigit then some (valueIn 10 t) else none

/-- An integer in decimal digits. -/
def decimal (n : Int) : Text := lit (toString n)

end FlutterScaffold.Shell
