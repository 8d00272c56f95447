/-!
# Bytes and byte strings

Every document, name and path of this library is a finite list of bytes, so an offset counts
bytes and no encoding is assumed. The letter, digit and space classes are the ASCII ones: a byte of
128 or more belongs to none of them.
-/

namespace FlutterScaffold

/-- One byte of text. -/
abbrev Byte := UInt8

/-- A byte string. -/
abbrev Text := List Byte

/-- The bytes of a string constant, in UTF-8. -/
def lit (s : String) : Text := s.toList.flatMap String.utf8EncodeChar

/-- The byte of an ASCII character. -/
abbrev byte (c : Char) : Byte := c.toUInt8

@[simp] theorem lit_empty : lit "" = [] := rfl

/-- The bytes of a constant are those of its characters. Rewriting with this spares a proof by
evaluation from decoding the constant. -/
theorem lit_ofList (cs : List Char) : lit (String.ofList cs) =
    cs.flatMap String.utf8EncodeChar := by
  rw [lit, String.toList_ofList]

namespace Byte

/-- The byte that ends a line. -/
abbrev newline : Byte := 10

/-- The byte that stands before the newline in a two-byte line break. -/
abbrev carriageReturn : Byte := 13

/-- The single quote. -/
abbrev quote : Byte := 39

/-- The double quote. -/
abbrev doubleQuote : Byte := 34

/-- The backslash. -/
abbrev backslash : Byte := 92

/-- The slash, which separates the names of a path. -/
abbrev slash : Byte := 47

/-- Capital letters `A` to `Z`. -/
def isUpper (b : Byte) : Bool := 65 ≤ b && b ≤ 90

/-- Small letters `a` to `z`. -/
def isLower (b : Byte) : Bool := 97 ≤ b && b ≤ 122

/-- Decimal digits. -/
def isDigit (b : Byte) : Bool := 48 ≤ b && b ≤ 57

/-- Letters and digits. -/
def isAlnum (b : Byte) : Bool := isUpper b || isLower b || isDigit b

/-- Bytes that may start an identifier: a letter, an underscore or a dollar sign. -/
def isIdentifierStart (b : Byte) : Bool := isUpper b || isLower b || b == 95 || b == 36

/-- Bytes that may continue an identifier. -/
def isIdentifier (b : Byte) : Bool := isIdentifierStart b || isDigit b

/-- Space and the five control bytes from tab to carriage return. -/
def isSpace (b : Byte) : Bool := b == 32 || (9 ≤ b && b ≤ 13)

/-- Space and tab, the bytes of an indentation. -/
def isBlank (b : Byte) : Bool := b == 32 || b == 9

/-- Space, tab and carriage return, which surround the content of a line. -/
def isMargin (b : Byte) : Bool := isBlank b || b == carriageReturn

/-- Space, tab, carriage return and newline. -/
def isLayout (b : Byte) : Bool := isMargin b || b == newline

/-- The small form of a capital letter; any other byte is kept. -/
def toLower (b : Byte) : Byte := if isUpper b then b + 32 else b

/-- The capital form of a small letter; any other byte is kept. -/
def toUpper (b : Byte) : Byte := if isLower b then b - 32 else b

/-- A blank is a space. -/
theorem isSpace_of_isBlank {b : Byte} (h : isBlank b = true) : isSpace b = true := by
  simp only [isBlank, Bool.or_eq_true, beq_iff_eq] at h
  rcases h with rfl | rfl <;> rfl

end Byte

end FlutterScaffold
