import FlutterScaffold.Dart.Lexis

/-!
# String literals of generated code

A value is written between single quotes, and a backslash goes before each byte that would end the
literal, start an escape or start an interpolation. Taking the escapes away gives the value back
(`unescape_escape`).
-/

namespace FlutterScaffold.Dart

/-- Bytes that a literal in single quotes cannot hold as they are. -/
def needsEscape (b : Byte) : Bool := b == Byte.quote || b == Byte.backslash || b == byte '$'

/-- A value with a backslash before each byte that needs one. -/
def escape (value : Text) : Text :=
  value.flatMap fun b => if needsEscape b then [Byte.backslash, b] else [b]

/-- A value as a string literal in single quotes. -/
def stringLiteral (value : Text) : Text := Byte.quote :: escape value ++ [Byte.quote]

/-- Drops the backslash of every two-byte escape. -/
def unescape : Text → Text
  | [] => []
  | [b] => [b]
  | b :: c :: rest => if b = Byte.backslash then c :: unescape rest else b :: unescape (c :: rest)

private theorem unescape_cons {b : Byte} (hb : b ≠ Byte.backslash) (t : Text) :
    unescape (b :: t) = b :: unescape t := by
  cases t <;> simp [unescape, hb]

/-- Escaping loses nothing. -/
theorem unescape_escape (value : Text) : unescape (escape value) = value := by
  induction value with
  | nil => rfl
  | cons b rest ih =>
    simp only [escape, List.flatMap_cons] at ih ⊢
    by_cases hb : needsEscape b = true
    · simp [hb, unescape, ih]
    · have hne : b ≠ Byte.backslash := by rintro rfl; exact hb rfl
      simp [hb, unescape_cons hne, ih]

end FlutterScaffold.Dart
