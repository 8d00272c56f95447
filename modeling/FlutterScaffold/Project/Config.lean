import FlutterScaffold.Registry.Patch
import FlutterScaffold.Path.Normal

/-!
# Project settings

The settings of a project say where its parts lie, relative to the project directory, and how its
registry is spelled and patched. Every setting but the name and the directory has a default.
-/

namespace FlutterScaffold.Project

/-- The settings of one project. -/
structure Config where
  name : Text := []
  /-- The project directory. -/
  root : Path := []
  /-- The registry file. -/
  router : Path := lit "lib/core/router/app_router.dart"
  /-- How the registry is spelled. -/
  anchors : Registry.AnchorSpec := {}
  /-- The directory of the features. -/
  features : Path := lit "lib/features"
  /-- The directory of single pages and widgets. -/
  widgets : Path := lit "lib/shared/widgets"
  /-- The directory of single providers. -/
  providers : Path := lit "lib/shared/providers"
  /-- What to do about a registry without an anchor. -/
  policy : Registry.Policy := .atomic
  deriving DecidableEq, Repr

namespace Config

/-- The registry file as seen from the current directory. -/
def routerPath (config : Config) : Path := config.root.join config.router

end Config

/-- The file that holds the settings of a project. -/
def manifestName : Path := lit "boilr.project"

/-- The name of a directory, which for `.` and `..` is told from the current directory. -/
def directoryName (here dir : Path) : Text :=
  let normal := (here.join dir).normal
  if normal.fileName.isEmpty then normal.parent.fileName else normal.fileName

end FlutterScaffold.Project
