import FlutterScaffold.Registry.Anchor
import FlutterScaffold.Registry.Route
import FlutterScaffold.Dart.Literal

/-!
# The declarations of a route

A route stands in a registry as three declarations: the import of its page, the pair of constants
for its path and name, and its entry in the route list. Each is written as lines that are indented
relative to the first. A declaration counts as present when its lines follow one another in the
document, whatever surrounds them on their lines.
-/

namespace FlutterScaffold.Registry

/-- The import of the page. -/
def importLines (route : Route) : List Text :=
  [lit "import " ++ Dart.stringLiteral route.importPath ++ lit ";"]

/-- One string constant. -/
def constantLine (name value : Text) : Text :=
  lit "static const String " ++ name ++ lit " = " ++ Dart.stringLiteral value ++ lit ";"

/-- The path constant, then the name constant. -/
def constantLines (route : Route) : List Text :=
  [constantLine route.symbol route.path, constantLine (route.symbol ++ lit "Name") route.name]

/-- The entry of the route list. -/
def entryLines (spec : AnchorSpec) (route : Route) : List Text :=
  [lit "GoRoute(",
    lit "  path: " ++ spec.routerClass ++ lit "." ++ route.symbol ++ lit ",",
    lit "  name: " ++ spec.routerClass ++ lit "." ++ route.symbol ++ lit "Name,",
    lit "  builder: (context, state) => const " ++ route.widget ++ lit "(),",
    lit "),"]

/-- Whether some place of a list starts with the given lines. -/
def occursIn (wanted : List Text) : List Text → Bool
  | [] => wanted.isEmpty
  | line :: more => wanted.isPrefixOf (line :: more) || occursIn wanted more

/-- Whether a declaration stands in a document, on consecutive lines compared without the blanks
around them. -/
def declares (doc : Text) (declaration : List Text) : Bool :=
  occursIn (declaration.map (Text.trim Byte.isMargin))
    ((Text.lines doc).map (Text.trim Byte.isMargin))

/-- Occurrence is the infix relation on lines. -/
theorem occursIn_iff {wanted l : List Text} : occursIn wanted l = true ↔ wanted <:+: l := by
  induction l with
  | nil => cases wanted <;> simp [occursIn]
  | cons line more ih =>
    rw [occursIn, Bool.or_eq_true, ih, List.infix_cons_iff, List.isPrefixOf_iff_prefix]

end FlutterScaffold.Registry
