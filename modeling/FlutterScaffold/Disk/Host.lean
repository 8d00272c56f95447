import FlutterScaffold.Disk.Walk

/-!
# The machine a command works on

A host is a file tree with a current directory and the scripts that its command path offers. The
requests of this file are the ones a file system answers: they look at an entry, read and write a
file, make a directory, remove an entry and rename one. Each either changes the tree as a whole or
refuses and leaves it as it was.
-/

namespace FlutterScaffold.Disk

/-- A machine, as far as a command can see it. -/
structure Host where
  tree : Tree := {}
  /-- The current directory. -/
  here : Place := []
  /-- The scripts that can be run by name. -/
  commands : List (Text × Text) := []
  deriving DecidableEq, Repr

namespace Host

/-- The current directory as a path from the root. -/
def herePath (host : Host) : Path := pathOf host.here

/-- The entry at a path, through links. -/
def status (host : Host) (p : Path) : Except Refusal Entry := do
  match (← locate host.tree host.here true p).entry with
  | some entry => .ok entry
  | none => .error .noEntry

/-- The entry at a path, which may be a link. -/
def linkStatus (host : Host) (p : Path) : Except Refusal Entry := do
  match (← locate host.tree host.here false p).entry with
  | some entry => .ok entry
  | none => .error .noEntry

/-- Whether anything stands at a path. -/
def exists? (host : Host) (p : Path) : Bool := (host.status p).isOk

/-- Whether a path names a directory. -/
def isDirectory (host : Host) (p : Path) : Bool :=
  match host.status p with
  | .ok .directory => true
  | _ => false

/-- Whether a path names a file. -/
def isFile (host : Host) (p : Path) : Bool :=
  match host.status p with
  | .ok (.file _) => true
  | _ => false

/-- The bytes that are read from a path. A directory can be opened, but nothing is read from it;
what is read from the full device has no end. -/
def readFile (host : Host) (p : Path) : Except Refusal Text := do
  match ← host.status p with
  | .file content => .ok content
  | .directory => .ok []
  | .device .null => .ok []
  | _ => .error .noSpace

/-- A file with new bytes; it is created when it does not stand there yet, and keeps its other names
when it does. A device stays what it is. -/
def writeFile (host : Host) (p : Path) (content : Text) : Except Refusal Host := do
  let spot ← locate host.tree host.here true p
  match spot.entry with
  | none => .ok { host with tree := host.tree.put spot.place (.file content) }
  | some (.file _) => .ok { host with tree := host.tree.rewrite spot.place content }
  | some (.device .null) => .ok host
  | some (.device .full) => if content.isEmpty then .ok host else .error .noSpace
  | some _ => .error .isDirectory

/-- A new directory in a directory that exists. -/
def makeDirectory (host : Host) (p : Path) : Except Refusal Host := do
  let spot ← locate host.tree host.here false (Text.trimEnd (· == Byte.slash) (seen p))
  match spot.entry with
  | none => .ok { host with tree := host.tree.put spot.place .directory }
  | some _ => .error .exists

/-- The object at a path, which may be a link. -/
def findObject (host : Host) (p : Path) : Except Refusal Slot := do
  let spot ← locate host.tree host.here false p
  match host.tree.slot? spot.place with
  | none => .error .noEntry
  | some .directory => .error .isDirectory
  | some slot => .ok slot

/-- The tree without a file, a link or an empty directory. -/
def remove (host : Host) (p : Path) : Except Refusal Host := do
  let spot ← locate host.tree host.here false p
  match spot.entry with
  | none => .error .noEntry
  | some .directory =>
    if host.tree.hasChildren spot.place then .error .notEmpty
    else .ok { host with tree := host.tree.erase spot.place }
  | some _ => .ok { host with tree := host.tree.erase spot.place }

/-- Whether the last name of a path stands for a directory that is reached otherwise too. -/
def endsInDots (p : Path) : Bool :=
  p.names.getLast?.any fun name => name = Path.dot || name = Path.dotDot

/-- A file or link moved to another path, in the stead of what stood there. A directory is not
moved, and none is replaced; two names of one object both stay. -/
def rename (host : Host) (p q : Path) : Except Refusal Host := do
  let q := seen q
  let old ← locate host.tree host.here false p
  let new ← locate host.tree host.here false (Text.trimEnd (· == Byte.slash) q)
  if endsInDots q then .error .busy
  else
    match old.entry, new.entry with
    | none, _ => .error .noEntry
    | some .directory, _ => .error .isDirectory
    | some _, target =>
      if q.endsInSlash then .error .notDirectory
      else if target = some .directory then .error .isDirectory
      else if host.tree.SameObject old.place new.place then .ok host
      else .ok { host with tree := host.tree.move old.place new.place }

/-- What is read is a file with these bytes, or something that reads as empty. -/
theorem status_of_readFile {host : Host} {p : Path} {content : Text}
    (h : host.readFile p = .ok content) : host.status p = .ok (.file content) ∨ content = [] := by
  unfold readFile at h
  cases hs : host.status p with
  | error e => rw [hs] at h; cases h
  | ok entry =>
    rw [hs] at h
    match entry, h with
    | .file _, h => exact Or.inl (by cases h; rfl)
    | .directory, h => exact Or.inr (by cases h; rfl)
    | .device .null, h => exact Or.inr (by cases h; rfl)

end Host

end FlutterScaffold.Disk
