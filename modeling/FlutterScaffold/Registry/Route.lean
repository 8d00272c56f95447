import FlutterScaffold.Name.Form

/-!
# Routes

A route ties a page of the application to a path and a name. All its spellings come from one name;
only the place of the page file is given beside it.
-/

namespace FlutterScaffold

/-- A route to be declared in a registry. -/
structure Route where
  /-- The constant that holds the path; the name constant appends `Name` to it. -/
  symbol : Text
  /-- The path, `/user_profile`. -/
  path : Text
  /-- The name of the route, `user_profile`. -/
  name : Text
  /-- The page class that the route builds. -/
  widget : Text
  /-- The page file, as the registry file imports it. -/
  importPath : Text
  deriving DecidableEq, Repr

/-- The route to the page of a feature. -/
def Route.ofFeature (name : Name) (importPath : Text) : Route where
  symbol := name.identifier
  path := name.path
  name := name.snake
  widget := name.typeName ++ lit "Page"
  importPath := importPath

end FlutterScaffold
