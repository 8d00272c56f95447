import FlutterScaffold.Shell.Number

/-!
# Decimal text of binary numbers

A floating-point number is a natural number of at most 53 bits times a power of two. A decimal text
is read as the nearest such number, and written with a chosen number of digits as the nearest
decimal; in both directions a tie goes to the even neighbour. All of it is exact arithmetic on
natural numbers.
-/

namespace FlutterScaffold.Shell

/-- A quotient rounded to the nearest natural number, a tie to the even one. -/
def roundDiv (num den : Nat) : Nat :=
  let q := num / den
  let r := num % den
  if den < 2 * r || (2 * r = den && q % 2 = 1) then q + 1 else q

/-- A number that a program can hold. -/
inductive Floating where
  /-- `mantissa` times two to the power `exponent`. -/
  | finite (negative : Bool) (mantissa : Nat) (exponent : Int)
  | infinite (negative : Bool)
  | notANumber (negative : Bool)
  deriving DecidableEq, Repr

/-- Zero. -/
def Floating.zero : Floating := .finite false 0 0

/-! ## Reading -/

/-- The least exponent of a number. -/
def minExponent : Int := -1074

/-- The greatest exponent of a number. -/
def maxExponent : Int := 971

/-- A fraction as the nearest mantissa with its exponent. -/
def nearest (num den : Nat) : Nat × Int :=
  if num = 0 then (0, 0)
  else
    let guess : Int := (Nat.log2 num : Int) - Nat.log2 den - 52
    let above := num <<< (-guess).toNat
    let below := den <<< guess.toNat
    let exponent := max minExponent (if above < below <<< 52 then guess - 1 else guess)
    let mantissa := roundDiv (num <<< (-exponent).toNat) (den <<< exponent.toNat)
    if mantissa = 1 <<< 53 then (1 <<< 52, exponent + 1) else (mantissa, exponent)

/-- Whether a mantissa with its exponent is exactly a fraction. -/
def isExact (num den mantissa : Nat) (exponent : Int) : Bool :=
  num <<< (-exponent).toNat == (mantissa * den) <<< exponent.toNat

/-- The number nearest to a fraction, and whether it is in range: neither too large nor so small
that digits are lost. -/
def Floating.ofFraction (negative : Bool) (num den : Nat) : Floating × Bool :=
  let (mantissa, exponent) := nearest num den
  if maxExponent < exponent then (.infinite negative, false)
  else
    (.finite negative mantissa exponent, 1 <<< 52 ≤ mantissa || isExact num den mantissa exponent)

/-- A fraction written with digits in a base, told from the text behind its sign, and how many bytes
it takes: the digits as one number, and how many of them follow the point. -/
def digitsAt? (base : Nat) (t : Text) : Option (Nat × Nat × Nat) :=
  let whole := t.takeWhile (isDigitIn base)
  let rest := t.drop whole.length
  let fraction :=
    if rest.head? = some (byte '.') then rest.tail.takeWhile (isDigitIn base) else []
  if whole.isEmpty && fraction.isEmpty then none
  else
    let point := if rest.head? = some (byte '.') then 1 else 0
    some (valueIn base (whole ++ fraction), fraction.length,
      whole.length + point + fraction.length)

/-- The exponent at the start of a text behind one of two marks, and how many bytes it takes. -/
def exponentAt (small capital : Char) (t : Text) : Int × Nat :=
  match t with
  | mark :: rest =>
    let plain := !rest.head?.any Byte.isSpace
    if (mark = byte small || mark = byte capital) && plain then
      match integerAt? false rest with
      | some (n, size) => (n, size + 1)
      | none => (0, 0)
    else (0, 0)
  | [] => (0, 0)

/-- A large power is as good as any larger one. -/
def clampPower (digits : Nat) (n : Int) : Int := max (-(2000 + digits : Int)) (min n 2000)

/-- The number at the start of a text behind its sign, whether it is in range, and how many bytes it
takes. -/
def unsignedFloating? (negative : Bool) (t : Text) : Option (Floating × Bool × Nat) :=
  let lower := t.map Byte.toLower
  if (lit "infinity").isPrefixOf lower then some (.infinite negative, true, 8)
  else if (lit "inf").isPrefixOf lower then some (.infinite negative, true, 3)
  else if (lit "nan").isPrefixOf lower then some (.notANumber negative, true, 3)
  else
    let hexadecimal :=
      if (lit "0x").isPrefixOf lower then digitsAt? 16 (t.drop 2) else none
    match hexadecimal with
    | some (n, places, size) =>
      let (power, more) := exponentAt 'p' 'P' (t.drop (2 + size))
      let power := clampPower (4 * size) power - 4 * places
      let (value, inRange) :=
        Floating.ofFraction negative (n <<< power.toNat) (1 <<< (-power).toNat)
      some (value, inRange, 2 + size + more)
    | none =>
      (digitsAt? 10 t).map fun (n, places, size) =>
        let (power, more) := exponentAt 'e' 'E' (t.drop size)
        let power := clampPower size power - places
        let (value, inRange) :=
          Floating.ofFraction negative (n * Nat.pow 10 power.toNat) (Nat.pow 10 (-power).toNat)
        (value, inRange, size + more)

/-- The number at the start of a text, whether it is in range, and how many bytes it takes with its
sign and the spaces before it. -/
def floatingAt? (t : Text) : Option (Floating × Bool × Nat) :=
  let spaces := (t.takeWhile Byte.isSpace).length
  let rest := t.drop spaces
  let negative := rest.head? = some (byte '-')
  let signed := negative || rest.head? = some (byte '+')
  let sign := if signed then 1 else 0
  (unsignedFloating? negative (rest.drop sign)).map fun (value, inRange, size) =>
    (value, inRange, spaces + sign + size)

/-! ## Writing -/

/-- The decimal digits of a number, with zeros before it up to a size. -/
def digitsOf (size n : Nat) : Text :=
  let digits := lit (toString n)
  List.replicate (size - digits.length) (byte '0') ++ digits

/-- Digits with a point before the last of them. A point before no digit is left out unless it is
asked for. -/
def pointed (alternate : Bool) (places : Nat) (digits : Text) : Text :=
  let whole := digits.take (digits.length - places)
  let fraction := digits.drop (digits.length - places)
  whole ++ (if places = 0 && !alternate then [] else [byte '.']) ++ fraction

/-- A number with a fixed number of digits behind the point. -/
def fixed (alternate : Bool) (places mantissa : Nat) (exponent : Int) : Text :=
  let n := roundDiv ((mantissa <<< exponent.toNat) * Nat.pow 10 places) (1 <<< (-exponent).toNat)
  pointed alternate places (digitsOf (places + 1) n)

/-- The power of ten at the first digit of a number. -/
def leadingPower (mantissa : Nat) (exponent : Int) : Int :=
  let num := mantissa <<< exponent.toNat
  let den := 1 <<< (-exponent).toNat
  if num = 0 then 0
  else if den ≤ num then (toString (num / den)).length - 1
  else -((toString ((den + num - 1) / num - 1)).length : Int)

/-- The digits of a number, one more than the given places, and the power of ten at the first. -/
def leadingDigits (places mantissa : Nat) (exponent : Int) : Nat × Int :=
  let power := leadingPower mantissa exponent
  let shift := places - power
  let n :=
    roundDiv ((mantissa <<< exponent.toNat) * Nat.pow 10 shift.toNat)
      ((1 <<< (-exponent).toNat) * Nat.pow 10 (-shift).toNat)
  if n = Nat.pow 10 (places + 1) then (Nat.pow 10 places, power + 1) else (n, power)

/-- An exponent of ten behind its mark. -/
def exponentText (power : Int) : Text :=
  lit "e" ++ (if power < 0 then [byte '-'] else [byte '+']) ++ digitsOf 2 power.natAbs

/-- A number with one digit before the point and its power of ten. -/
def scientific (alternate : Bool) (places mantissa : Nat) (exponent : Int) : Text :=
  let (n, power) := leadingDigits places mantissa exponent
  pointed alternate places (digitsOf (places + 1) n) ++ exponentText power

/-- Digits behind a point without the zeros at their end. -/
def withoutZeros (t : Text) : Text :=
  if t.contains (byte '.') then
    let kept := (t.reverse.dropWhile (· == byte '0')).reverse
    if kept.getLast? = some (byte '.') then kept.dropLast else kept
  else t

/-- A number in the shorter of the two forms, with a number of digits that count. -/
def general (alternate : Bool) (digits mantissa : Nat) (exponent : Int) : Text :=
  let digits := max digits 1
  let (n, power) := leadingDigits (digits - 1) mantissa exponent
  let tidy (t : Text) : Text := if alternate then t else withoutZeros t
  if power < -4 || digits ≤ power then
    tidy (pointed alternate (digits - 1) (digitsOf digits n)) ++ exponentText power
  else tidy (fixed alternate (digits - 1 - power).toNat mantissa exponent)

/-- The text of a number without its sign, by the letter of a conversion. -/
def Floating.text (conversion : Byte) (alternate : Bool) (precision : Option Nat) : Floating → Text
  | .infinite _ => lit "inf"
  | .notANumber _ => lit "nan"
  | .finite _ mantissa exponent =>
    let precision := precision.getD 6
    if conversion = byte 'f' then fixed alternate precision mantissa exponent
    else if conversion = byte 'e' then scientific alternate precision mantissa exponent
    else general alternate precision mantissa exponent

/-- Whether a number is written with a minus sign. -/
def Floating.isNegative : Floating → Bool
  | .finite negative .. | .infinite negative | .notANumber negative => negative

end FlutterScaffold.Shell
