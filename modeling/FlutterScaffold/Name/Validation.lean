import FlutterScaffold.Name.Form
import FlutterScaffold.Text.Table

/-!
# Usable names

A name is usable when it can be a file name and a Dart identifier: its text has no path separator,
it has a letter or digit, the first of these is a letter, and the identifier is not a reserved word.
The tests are made in that order and the first that fails is reported.
-/

namespace FlutterScaffold.Name

/-- Words that cannot name a member, in byte order. -/
def reservedWords : List Text :=
  ["Function", "abstract", "as", "assert", "async", "await", "base", "break", "case", "catch",
    "class", "const", "continue", "covariant", "default", "deferred", "do", "dynamic", "else",
    "enum", "export", "extends", "extension", "external", "factory", "false", "final", "finally",
    "for", "get", "hide", "if", "implements", "import", "in", "interface", "is", "late", "library",
    "mixin", "new", "null", "of", "on", "operator", "part", "required", "rethrow", "return",
    "sealed", "set", "show", "static", "super", "switch", "sync", "this", "throw", "true", "try",
    "typedef", "var", "void", "when", "while", "with", "yield"].map lit

/-- Whether a word is reserved. -/
def isReserved (word : Text) : Bool := Text.binarySearch reservedWords word

/-- Why a text is not a usable name. -/
inductive Fault where
  /-- It holds a slash or a backslash. -/
  | pathSeparator
  /-- It has neither letter nor digit. -/
  | blank
  /-- Its first letter or digit is a digit. -/
  | leadingDigit
  /-- Its identifier is a reserved word. -/
  | reserved
  deriving DecidableEq, Repr

/-- What is said about a text that should have named a thing of the given kind. -/
def Fault.message (fault : Fault) (kind text : Text) : Text :=
  kind ++ lit " name '" ++ text ++ lit "' " ++
    match fault with
    | .pathSeparator => lit "must not contain path separators"
    | .blank => lit "contains no letters or digits"
    | .leadingDigit => lit "must not start with a digit"
    | .reserved => lit "is a reserved word"

/-- The name that a text spells, if it is usable. -/
def validate (text : Text) : Except Fault Name :=
  let name := ofText text
  if text.contains Byte.slash || text.contains Byte.backslash then .error .pathSeparator
  else
    match name.identifier with
    | [] => .error .blank
    | b :: _ =>
      if Byte.isDigit b then .error .leadingDigit
      else if isReserved name.identifier then .error .reserved
      else .ok name

/-- Validation never changes what a text spells. -/
theorem eq_ofText_of_validate {text : Text} {name : Name} (h : validate text = .ok name) :
    name = ofText text := by
  simp only [validate] at h
  split at h
  · simp at h
  · split at h
    · simp at h
    · split at h
      · simp at h
      · split at h
        · simp at h
        · exact (Except.ok.inj h).symm

end FlutterScaffold.Name
