import FlutterScaffold.Registry.Declaration
import FlutterScaffold.Text.Splice

/-!
# Merging a declaration into a registry

Each of the three declarations of a route is merged on its own: it is left alone when the document
has it already, refused when its anchor is missing, and otherwise written at its anchor with the
indentation and line break of its surroundings. The entry of the route list goes behind everything
the list holds, comments included, and brings the comma that its predecessor lacks.
-/

namespace FlutterScaffold.Registry

/-- What became of a declaration. -/
inductive Status where
  /-- It is to be inserted. -/
  | inserted
  /-- The document has it already. -/
  | present
  /-- There is no place for it. -/
  | missing
  deriving DecidableEq, Repr

/-- The decision about one declaration. -/
inductive Step where
  /-- Insert it; there is at least one insertion. -/
  | insert (first : Insertion) (more : List Insertion)
  /-- Leave it, as the document has it already. -/
  | keep
  /-- Give up, as the anchor is missing. -/
  | refuse
  deriving DecidableEq, Repr

namespace Step

/-- The status that a decision reports. -/
def status : Step → Status
  | .insert .. => .inserted
  | .keep => .present
  | .refuse => .missing

/-- The insertions that carry a decision out. -/
def insertions : Step → List Insertion
  | .insert first more => first :: more
  | .keep => []
  | .refuse => []

/-- There is something to insert exactly when the status says so. -/
theorem insertions_ne_nil_iff (step : Step) : step.insertions ≠ [] ↔ step.status = .inserted := by
  cases step <;> simp [insertions, status]

end Step

/-- The block of a declaration below the line that ends at offset `anchor`, indented like it. -/
def blockBelow (doc : Text) (anchor : Nat) (declaration : List Text) : Insertion where
  offset := anchor
  text := Text.block (Text.lineBreak doc) (Text.lineIndent doc (anchor - 1)) declaration

/-- The import goes below the last import. -/
def mergeImport (doc : Text) (anchors : Anchors) (route : Route) : Step :=
  if declares doc (importLines route) then .keep
  else
    match anchors.importEnd with
    | none => .refuse
    | some anchor => .insert (blockBelow doc anchor (importLines route)) []

/-- The constants go below the last name constant of the class. -/
def mergeConstants (doc : Text) (anchors : Anchors) (route : Route) : Step :=
  if declares doc (constantLines route) then .keep
  else
    match anchors.containerOpen, anchors.constantEnd with
    | some _, some anchor => .insert (blockBelow doc anchor (constantLines route)) []
    | _, _ => .refuse

/-- The end of a list's content: before the layout that precedes the closer, but not before
`start`. -/
def contentEnd (doc : Text) (start closer : Nat) : Nat :=
  closer - (((doc.take closer).drop start).reverse.takeWhile Byte.isLayout).length

/-- The offset of the byte that opens the list content at `start`. A token without bytes at the
start of the document leaves nothing before the content, and then the end of the document stands for
it. -/
def beforeContent (doc : Text) (start : Nat) : Nat := if start = 0 then doc.length else start - 1

/-- The insertions that append an entry to the list between `start` and `closer`. -/
def appendEntry (spec : AnchorSpec) (doc : Text) (start closer : Nat) (route : Route) : Step :=
  let last := Dart.lastCode? doc start closer
  let tail := contentEnd doc start closer
  let indent :=
    match last with
    | none => Text.lineIndent doc (beforeContent doc start) ++ lit "  "
    | some last => Text.lineIndent doc last
  let closing :=
    if ((doc.take closer).drop tail).contains Byte.newline then []
    else Text.lineBreak doc ++ Text.lineIndent doc closer
  let entry : Insertion :=
    { offset := tail
      text := Text.block (Text.lineBreak doc) indent (entryLines spec route) ++ closing }
  match last with
  | none => .insert entry []
  | some last =>
    if doc[last]? = some (byte ',') then .insert entry []
    else .insert { offset := last + 1, text := lit "," } [entry]

/-- The entry goes behind the last element of the route list. -/
def mergeEntry (spec : AnchorSpec) (doc : Text) (anchors : Anchors) (route : Route) : Step :=
  if declares doc (entryLines spec route) then .keep
  else
    match anchors.listOpen, anchors.listClose with
    | some listOpen, some closer => appendEntry spec doc (spec.listStart listOpen) closer route
    | _, _ => .refuse

end FlutterScaffold.Registry
