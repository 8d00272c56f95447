import FlutterScaffold.Registry.Patch
import FlutterScaffold.Task

/-!
# Registries on disk

Registering a route reads the registry file, patches its text and replaces the file when the text
changed. A registry that is absent, or that lacks an anchor, is only warned about; a fault arises
where the file cannot be read or replaced.
-/

namespace FlutterScaffold.Registry

open Disk (FileFault)

/-- What a registration warns about. -/
inductive Warning where
  | noRegistry
  | noImport
  | noConstants (signature : Text)
  | noList (token : Text)
  deriving DecidableEq, Repr

/-- The words of a warning about a route. -/
def Warning.message (warning : Warning) (route : Route) : Text :=
  let subject := lit "route '" ++ route.name ++ lit "'"
  match warning with
  | .noRegistry => lit "route registry not found; skipping registration of " ++ subject
  | .noImport => lit "no import statements found; cannot add the import for " ++ subject
  | .noConstants signature =>
    lit "no route constant pair found inside '" ++ signature ++
      lit "'; cannot add constants for " ++ subject
  | .noList token =>
    lit "no balanced '" ++ token ++ lit "' list found; cannot add the entry for " ++ subject

/-- A warning as a diagnostic about the registry file. -/
def Warning.diagnostic (warning : Warning) (registry : Path) (route : Route) : Diagnostic where
  severity := .warning
  message := warning.message route
  path := registry.generic

/-- The warnings that an outcome calls for: one for each declaration that had no place. -/
def Outcome.warnings (outcome : Outcome) (spec : AnchorSpec) : List Warning :=
  (if outcome.importStatus = some .missing then [.noImport] else []) ++
    (if outcome.constantsStatus = some .missing then [.noConstants spec.signature] else []) ++
    (if outcome.entryStatus = some .missing then [.noList spec.listToken] else [])

/-- Registers a route in a registry file. -/
def register (registry : Path) (spec : AnchorSpec) (policy : Policy) (route : Route) :
    Task FileFault Outcome := do
  let warn (warning : Warning) : Task FileFault Unit :=
    Task.report (warning.diagnostic registry route)
  if !(← get).host.isFile registry then
    warn .noRegistry
    return { detail := .noRegistry }
  let doc ← Task.onHost (Disk.readText registry) id
  let outcome := patch spec policy doc route
  (outcome.warnings spec).forM warn
  if outcome.modified then Task.onHost (Disk.replaceText registry outcome.text) id
  return outcome

end FlutterScaffold.Registry
