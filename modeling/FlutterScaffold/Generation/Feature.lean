import FlutterScaffold.Generation.Fault
import FlutterScaffold.Registry.Storage
import FlutterScaffold.Project.Config
import FlutterScaffold.Template.Feature
import FlutterScaffold.Template.Single

/-!
# Generating into a project

Features, pages, widgets and providers are generated from their templates into the directories that
the settings of the project give. All targets are looked at before the first file is written, so a
generation that is refused because of a file leaves nothing behind. The page of a feature is then
registered as a route; a registry that cannot take it is only warned about.
-/

namespace FlutterScaffold.Generation

open Project (Config)
open Template (Vars)

/-- What a generation made. -/
structure Report where
  /-- The directories that were asked for, in order. -/
  directories : List Path := []
  /-- The files that were written, in order. -/
  files : List Path := []
  /-- What became of the route, if one was to be registered. -/
  registration : Option Registry.Outcome := none
  deriving DecidableEq, Repr

/-- The values that templates are filled with. -/
def varsOf (name : Name) (routerClass : Text) : Vars :=
  [(lit "snake", name.snake), (lit "ident", name.identifier), (lit "Type", name.typeName),
    (lit "router", routerClass)]

/-- The files that templates make below a directory. -/
def filesBelow (root : Path) (vars : Vars) (templates : List Template) : List (Path × Text) :=
  templates.map fun t => (root.join (t.fill vars).path, (t.fill vars).body)

/-- The directory of a feature. -/
def featureRoot (config : Config) (name : Name) : Path :=
  (config.root.join config.features).join name.snake

/-- The files of a feature. -/
def featureFiles (config : Config) (name : Name) : List (Path × Text) :=
  filesBelow (featureRoot config name) (varsOf name config.anchors.routerClass)
    Template.Feature.files

/-- The directories of a feature. -/
def featureDirectories (config : Config) (name : Name) : List Path :=
  Template.Feature.directories.map (featureRoot config name).join

/-- The page file of a feature, below a directory. -/
def pageBelow (config : Config) (root : Path) (name : Name) : Path :=
  root.join (Template.expand (varsOf name config.anchors.routerClass) Template.Feature.pagePath)

/-- The route to the page of a feature, with the page as the registry file imports it. -/
def featureRoute (config : Config) (name : Name) : Route :=
  let page := (pageBelow config (config.features.join name.snake) name).normal
  let directory := config.router.normal.parent
  let target := if directory.isEmpty then page else page.relativeTo directory
  Route.ofFeature name target.generic

/-- The name that a text spells, for a thing of some kind. -/
def named (kind : String) (text : Text) : Task Fault Name :=
  match Name.validate text with
  | .ok name => return name
  | .error fault => throw (.badName (lit kind) text fault)

/-- Refuses a generation one of whose files exists, unless it may overwrite. -/
def checkTargets (overwrite : Bool) (files : List Path) : Task Fault Unit := do
  if !overwrite then
    match files.find? (← get).host.exists? with
    | some p => throw (.file ⟨.alreadyThere, p⟩)
    | none => pure ()

/-- Makes directories, and reports each. -/
def ensureAll (directories : List Path) (report : Report) : Task Fault Report :=
  directories.foldlM (fun report d => do
    Task.onHost (Disk.ensureDirectory d) .file
    return { report with directories := report.directories ++ [d] }) report

/-- Writes files, whether they exist or not, and reports each. -/
def writeAll (files : List (Path × Text)) (report : Report) : Task Fault Report :=
  files.foldlM (fun report (p, body) => do
    Task.onHost (Disk.writeText p body true) .file
    return { report with files := report.files ++ [p] }) report

/-- Registers the route to the page of a feature, and reports what became of it. -/
def registerRoute (config : Config) (name : Name) (report : Report) : Task Fault Report := do
  let desk ← get
  let registration :=
    Registry.register config.routerPath config.anchors config.policy (featureRoute config name)
  let (result, desk) := registration.runOn desk
  set desk
  match result with
  | .ok outcome => return { report with registration := some outcome }
  | .error fault => throw (.file fault)

/-- Generates a feature and registers its page. -/
def feature (config : Config) (overwrite : Bool) (text : Text) : Task Fault Report := do
  let name ← named "feature" text
  let files := featureFiles config name
  checkTargets overwrite (files.map (·.1))
  let report ← ensureAll (featureDirectories config name) {}
  let report ← writeAll files report
  registerRoute config name report

/-- Generates one file into a directory of the project. -/
def single (kind : String) (directory : Path) (template : Template) (config : Config)
    (overwrite : Bool) (text : Text) : Task Fault Report := do
  let name ← named kind text
  let files :=
    filesBelow (config.root.join directory) (varsOf name config.anchors.routerClass) [template]
  checkTargets overwrite (files.map (·.1))
  writeAll files {}

/-- Generates a page. -/
def page (config : Config) : Bool → Text → Task Fault Report :=
  single "page" config.widgets Template.page config

/-- Generates a widget. -/
def widget (config : Config) : Bool → Text → Task Fault Report :=
  single "widget" config.widgets Template.widget config

/-- Generates a provider. -/
def provider (config : Config) : Bool → Text → Task Fault Report :=
  single "provider" config.providers Template.provider config

/-- Registers the page of a feature that exists. -/
def registration (config : Config) (text : Text) : Task Fault Report := do
  let name ← named "feature" text
  let page := pageBelow config (featureRoot config name) name
  if !(← get).host.isFile page then throw (.noPage name page)
  registerRoute config name {}

end FlutterScaffold.Generation
