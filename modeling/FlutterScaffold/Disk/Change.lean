import FlutterScaffold.Disk.Tree

/-!
# Changes between two trees

Two states of a tree are compared below a directory: each path at which something appeared,
disappeared or became different is told with what stands there now. Paths are relative to the
directory and come in the order of their bytes.
-/

namespace FlutterScaffold.Disk

/-- What stands at a path now, or that nothing does. -/
structure Change where
  path : Path
  now : Option Entry
  deriving DecidableEq, Repr

/-- A place below a directory, as a path from it. -/
def pathFrom (base place : Place) : Path :=
  List.intercalate Path.separator (place.take (place.length - base.length)).reverse

/-- The changes from one tree to another below a directory. -/
def changes (before after : Tree) (base : Place) : List Change :=
  let gone := (before.placesBelow base).filter fun place => (after.get? place).isNone
  let kept := (after.placesBelow base).filter fun place => after.get? place != before.get? place
  ((gone ++ kept).map fun place => ⟨pathFrom base place, after.get? place⟩).mergeSort
    fun c d => !decide (d.path < c.path)

end FlutterScaffold.Disk
