import FlutterScaffold.Project.Manifest
import FlutterScaffold.Disk.File

/-!
# Loading a project

The settings of a project come from the manifest in its directory when there is one, and are the
defaults otherwise. The project is named after its directory unless the manifest says so.
-/

namespace FlutterScaffold.Project

open Disk (Host)

/-- Why no settings could be loaded. -/
inductive LoadFault where
  | noDirectory (root : Path)
  | noManifest (manifest : Path)
  | badLine (manifest : Path) (number : Nat) (fault : LineFault)
  deriving DecidableEq, Repr

/-- A failure as a diagnostic. -/
def LoadFault.diagnostic : LoadFault → Diagnostic
  | .noDirectory root =>
    { severity := .error, message := lit "project root is not a directory", path := root.generic }
  | .noManifest manifest =>
    { severity := .error, message := lit "cannot open manifest", path := manifest.generic }
  | .badLine manifest number fault =>
    { severity := .error, message := fault.message, path := manifest.generic, line := number }

/-- The settings of a project without a manifest. -/
def defaults (host : Host) (root : Path) : Config where
  name := directoryName host.herePath root
  root := root

/-- The settings that a manifest file makes for the directory it lies in. -/
def readManifest (host : Host) (manifest : Path) : Except LoadFault Config :=
  match host.readFile manifest with
  | .error _ => .error (.noManifest manifest)
  | .ok text =>
    let root := if manifest.parent.isEmpty then Path.dot else manifest.parent
    (Manifest.parse (defaults host root) text).mapError fun (number, fault) =>
      .badLine manifest number fault

/-- The settings of the project in a directory. -/
def load (host : Host) (root : Path) : Except LoadFault Config :=
  let manifest := root.join manifestName
  if !host.isDirectory root then .error (.noDirectory root)
  else if host.exists? manifest then readManifest host manifest
  else .ok (defaults host root)

end FlutterScaffold.Project
