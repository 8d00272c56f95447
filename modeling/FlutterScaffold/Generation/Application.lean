import FlutterScaffold.Generation.Feature
import FlutterScaffold.Template.Application
import FlutterScaffold.Project.Manifest
import FlutterScaffold.Project.Pubspec
import FlutterScaffold.Shell.Evaluation

/-!
# Generating an application

A new application is created by the Flutter tool, unless that is left out, and then given its
package dependencies, its directories and files, a route registry and a manifest with the settings
of the project. A directory that exists already is written into only on demand, and never when the
Flutter tool is to create it.
-/

namespace FlutterScaffold.Generation

open Project (Config)

/-- What a new application should be. -/
structure Request where
  /-- The name of the project and of its directory. -/
  name : Text
  /-- The organization, in reverse domain order. -/
  organization : Text := []
  /-- The directory that receives the project. -/
  parent : Path := Path.dot
  /-- Whether the Flutter tool creates the project first. -/
  runFlutter : Bool := true
  /-- Whether an existing directory may be written into. -/
  overwrite : Bool := false
  deriving DecidableEq, Repr

/-- The directory of the new project. -/
def Request.directory (request : Request) : Path := request.parent.join request.name

/-- The settings of the new project. -/
def Request.config (request : Request) : Config where
  name := request.name
  root := request.directory

/-- The name of a request that can be carried out. -/
def Request.check (request : Request) : Task Fault Name := do
  let name ← named "project" request.name
  if name.snake != request.name then throw (.notSnake request.name name)
  if request.organization.isEmpty then throw .noOrganization
  if (← get).host.exists? request.directory then
    if request.runFlutter then throw (.targetExists request.directory)
    if !request.overwrite then throw (.targetKept request.directory)
  return name

/-- Lets the Flutter tool create the project. -/
def Request.createByFlutter (request : Request) : Task Fault Unit := do
  Task.report
    { severity := .note, message := lit "running flutter create", path := request.directory }
  let desk ← get
  let arguments :=
    [lit "flutter", lit "create", request.name, lit "--org", request.organization]
  let (result, host) := Shell.run arguments (some request.parent) desk.host
  set { desk with host := host }
  if result.exitCode != 0 then throw (.flutterFailed result.exitCode result.output)

/-- Adds the package dependencies, and reports the file if it was changed for it. -/
def addDependencies (pubspec : Path) (report : Report) : Task Fault Report := do
  let warn (message : String) : Task Fault Unit :=
    Task.report
      { severity := .warning
        message := lit message ++ lit "; add the package dependencies manually"
        path := pubspec }
  if !(← get).host.isFile pubspec then
    warn "pubspec.yaml not found"
    return report
  let text ← Task.onHost (Disk.readText pubspec) .file
  match Project.Pubspec.withDependencies? text with
  | none =>
    warn "no 'dependencies:' section"
    return report
  | some updated =>
    if updated = text then return report
    Task.onHost (Disk.replaceText pubspec updated) .file
    return { report with files := report.files ++ [pubspec] }

/-- The files of a new project: its templates, its registry and its manifest. -/
def applicationFiles (request : Request) (name : Name) : List (Path × Text) :=
  let config := request.config
  let vars := varsOf name config.anchors.routerClass ++ [(lit "project", request.name)]
  filesBelow request.directory vars Template.Application.files ++
    [(config.routerPath, Template.expand vars Template.Application.registry),
      (request.directory.join Project.manifestName, Project.Manifest.render config)]

/-- Generates an application. -/
def application (request : Request) : Task Fault Report := do
  let name ← request.check
  if request.runFlutter then request.createByFlutter
  let report ← ensureAll [request.directory] {}
  let report ← addDependencies (request.directory.join (lit "pubspec.yaml")) report
  let lib := request.directory.join (lit "lib")
  let report ← ensureAll (Template.Application.directories.map lib.join) report
  writeAll (applicationFiles request name) report

end FlutterScaffold.Generation
