import FlutterScaffold.Name.Segment

/-!
# The spellings of a name

A name is its list of segments, and every spelling that generated code needs is written from that
one list: the snake form for files and routes, the identifier for members, the type name for
classes, and the route path.
-/

namespace FlutterScaffold

/-- A name, as the list of its words. -/
structure Name where
  /-- The words, in small letters. -/
  segments : List Text
  deriving DecidableEq, Repr

namespace Name

/-- The name a text spells. -/
def ofText (text : Text) : Name := ⟨segmentsOf text⟩

/-- A word with its first letter as a capital. -/
def capitalize : Text → Text
  | [] => []
  | b :: rest => Byte.toUpper b :: rest

/-- The words joined by underscores: file names and route names. -/
def snake (name : Name) : Text := List.intercalate [byte '_'] name.segments

/-- The words run together, each capitalized: class names. -/
def typeName (name : Name) : Text := name.segments.flatMap capitalize

/-- The words run together, each but the first capitalized: members and variables. -/
def identifier (name : Name) : Text :=
  match name.segments with
  | [] => []
  | first :: more => first ++ more.flatMap capitalize

/-- The snake form behind a slash: route paths. -/
def path (name : Name) : Text := Byte.slash :: name.snake

/-- A type name and an identifier differ in no more than their first byte. -/
theorem typeName_eq_capitalize_identifier {name : Name} (h : ∀ s ∈ name.segments, s ≠ []) :
    name.typeName = capitalize name.identifier := by
  obtain ⟨segments⟩ := name
  cases segments with
  | nil => rfl
  | cons first more =>
    cases first with
    | nil => exact absurd rfl (h [] (by simp))
    | cons b rest => simp [typeName, identifier, capitalize]

end Name

end FlutterScaffold
