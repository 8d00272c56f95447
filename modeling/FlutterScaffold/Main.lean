import FlutterScaffold.CommandLine.Program
import FlutterScaffold.Disk.Change

/-!
# The program

The command line is a function from arguments and a host to a reply and a host. This file is what
lies around it: it takes a picture of the directories that a run can look at, carries the changes of
the run over to them, and prints the reply.
-/

namespace FlutterScaffold.Main

open Disk (Entry Host Place Tree)

/-- The string that a text spells; a byte outside UTF-8 has no place in it. -/
def stringOf (t : Text) : String := (String.fromUTF8? ⟨t.toArray⟩).getD ""

/-- The place that an absolute path names. -/
def placeOf (p : String) : Place := (Path.names (lit p)).reverse

/-- What stands below a directory, from the top. -/
partial def picture (place : Place) : IO (List (Place × Entry)) := do
  let mut found := []
  for child in ← ((← IO.currentDir) / stringOf (Disk.pathOf place)).readDir do
    let name := lit child.fileName
    match ← child.path.metadata.toBaseIO with
    | .error _ => pure ()
    | .ok metadata =>
      match metadata.type with
      | .dir => found := found ++ (name :: place, .directory) :: (← picture (name :: place))
      | .file =>
        let content := (← IO.FS.readBinFile child.path).data.toList
        found := found ++ [(name :: place, .file content)]
      | _ => pure ()
  return found

/-- The host as far as a run in a directory, with further directories named, can look at it. -/
def look (here : Place) (further : List Place) : IO Host := do
  let mut tree := Tree.mk Disk.devices
  for place in here :: further do
    match ← (picture place).toBaseIO with
    | .ok found =>
      tree := found.foldl (fun tree (place, entry) => tree.put place entry) (tree.reach place)
    | .error _ => pure ()
  return { tree := tree, here := here }

/-- Carries a change over to the disk. -/
def carry (change : Disk.Change) : IO Unit := do
  let p := "/" ++ stringOf change.path
  match change.now with
  | some .directory => IO.FS.createDirAll p
  | some (.file content) => IO.FS.writeBinFile p ⟨content.toArray⟩
  | some _ => pure ()
  | none => IO.FS.removeFile p

/-- Runs the command line in the current directory. -/
def run (arguments : List String) : IO UInt32 := do
  let here := placeOf (← IO.currentDir).toString
  let texts := arguments.map lit
  let further := (CommandLine.rootsOf texts).map fun p =>
    placeOf (stringOf (Path.join (Disk.pathOf here) p).normal)
  let host ← look here further
  let (reply, after) := CommandLine.run texts host
  (Disk.changes host.tree after.tree []).forM carry
  IO.print (stringOf reply.out)
  IO.eprint (stringOf reply.err)
  return UInt32.ofNat reply.code

end FlutterScaffold.Main

/-- The entry point. -/
def main (arguments : List String) : IO UInt32 := FlutterScaffold.Main.run arguments
