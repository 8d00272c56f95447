import FlutterScaffold.Registry.Merge

/-!
# Patching a registry

A patch brings one route into a registry document by its three merges. The atomic policy takes all
three against the same document and applies them together or not at all. The best-effort policy
applies each before it looks for the next place and stops at the first place that is missing. The
outcome says how far the patch came and holds the resulting document.
-/

namespace FlutterScaffold.Registry

/-- What to do about a missing anchor. -/
inductive Policy where
  /-- Apply all merges or none. -/
  | atomic
  /-- Apply the merges in order and stop at the first missing anchor. -/
  | bestEffort
  deriving DecidableEq, Repr

/-- The spelling of a policy. -/
def Policy.word : Policy → Text
  | .atomic => lit "atomic"
  | .bestEffort => lit "best-effort"

/-- The policy that a word spells. -/
def Policy.ofWord? (word : Text) : Option Policy :=
  if word = Policy.atomic.word then some .atomic
  else if word = Policy.bestEffort.word then some .bestEffort
  else none

theorem Policy.ofWord?_word (policy : Policy) : Policy.ofWord? policy.word = some policy := by
  cases policy <;> decide

/-- How far a registration came. -/
inductive Detail where
  /-- All three declarations are in the registry. -/
  | full
  /-- Only the import was dealt with. -/
  | importOnly
  /-- The import and the constants were dealt with. -/
  | importAndConstants
  /-- There is no registry file. -/
  | noRegistry
  /-- An anchor is missing and nothing was applied. -/
  | noAnchor
  deriving DecidableEq, Repr

/-- The spelling of a detail. -/
def Detail.word : Detail → Text
  | .full => lit "full"
  | .importOnly => lit "partial-import-only"
  | .importAndConstants => lit "partial-import-and-constants"
  | .noRegistry => lit "skipped-no-registry"
  | .noAnchor => lit "skipped-no-anchor"

/-- What a patch did. A status is absent when its merge was not attempted. -/
structure Outcome where
  /-- Whether the route is completely registered. -/
  applied : Bool := false
  detail : Detail
  /-- Whether the document was changed. -/
  modified : Bool := false
  importStatus : Option Status := none
  constantsStatus : Option Status := none
  entryStatus : Option Status := none
  /-- The resulting document. -/
  text : Text := []
  deriving DecidableEq, Repr

/-- The patch that takes all merges against one scan. -/
def patchAtomic (spec : AnchorSpec) (doc : Text) (route : Route) : Outcome :=
  let anchors := spec.scan doc
  let importStep := mergeImport doc anchors route
  let constantsStep := mergeConstants doc anchors route
  let entryStep := mergeEntry spec doc anchors route
  let outcome : Outcome :=
    { detail := .noAnchor
      importStatus := some importStep.status
      constantsStatus := some constantsStep.status
      entryStatus := some entryStep.status
      text := doc }
  if importStep.status = .missing || constantsStep.status = .missing ||
      entryStep.status = .missing then
    outcome
  else
    let insertions := importStep.insertions ++ constantsStep.insertions ++ entryStep.insertions
    { outcome with
      applied := true
      detail := .full
      modified := !insertions.isEmpty
      text := Text.splice doc insertions }

/-- The patch that applies each merge before it looks for the next anchor. -/
def patchBestEffort (spec : AnchorSpec) (doc : Text) (route : Route) : Outcome :=
  let importStep := mergeImport doc (spec.scan doc) route
  if importStep.status = .missing then
    { detail := .noAnchor, importStatus := some importStep.status, text := doc }
  else
    let imported := Text.splice doc importStep.insertions
    let constantsStep := mergeConstants imported (spec.scan imported) route
    if constantsStep.status = .missing then
      { detail := .importOnly
        modified := imported != doc
        importStatus := some importStep.status
        constantsStatus := some constantsStep.status
        text := imported }
    else
      let declared := Text.splice imported constantsStep.insertions
      let entryStep := mergeEntry spec declared (spec.scan declared) route
      let entered := Text.splice declared entryStep.insertions
      let detail := if entryStep.status = .missing then .importAndConstants else .full
      { applied := detail = .full
        detail := detail
        modified := entered != doc
        importStatus := some importStep.status
        constantsStatus := some constantsStep.status
        entryStatus := some entryStep.status
        text := entered }

/-- A document with a route registered in it, as far as the policy and the document allow. -/
def patch (spec : AnchorSpec) (policy : Policy) (doc : Text) (route : Route) : Outcome :=
  match policy with
  | .atomic => patchAtomic spec doc route
  | .bestEffort => patchBestEffort spec doc route

end FlutterScaffold.Registry
