import FlutterScaffold.Disk.Tree

/-!
# What a path names

A path is followed from the root or from the current directory, name by name: each name but the last
has to be a directory, `..` leads to the parent, and a symbolic link is replaced by its target, at
most forty times. The walk ends at a place, with the entry that stands there if there is one, or
fails for one of the reasons that a file system gives. The system reads no path beyond a zero byte.
-/

namespace FlutterScaffold.Disk

/-- Why a request to the file system fails. -/
inductive Refusal where
  | noEntry
  | notDirectory
  | isDirectory
  | nameTooLong
  | tooManyLinks
  | exists
  | busy
  | notEmpty
  | noSpace
  deriving DecidableEq, Repr

/-- The system's words for a failure. -/
def Refusal.message : Refusal → Text
  | .noEntry => lit "No such file or directory"
  | .notDirectory => lit "Not a directory"
  | .isDirectory => lit "Is a directory"
  | .nameTooLong => lit "File name too long"
  | .tooManyLinks => lit "Too many levels of symbolic links"
  | .exists => lit "File exists"
  | .busy => lit "Device or resource busy"
  | .notEmpty => lit "Directory not empty"
  | .noSpace => lit "No space left on device"

/-- Whether a failure only says that nothing stands at the path. -/
def Refusal.isAbsence (refusal : Refusal) : Bool := refusal = .noEntry || refusal = .notDirectory

/-- The place that a path names, and what stands there. -/
structure Spot where
  place : Place
  entry : Option Entry
  deriving DecidableEq, Repr

/-- The longest name that a directory can hold. -/
def maxName : Nat := 255

/-- The length from which on a path is refused. -/
def maxPath : Nat := 4096

/-- How many links a walk may follow. -/
def maxLinks : Nat := 40

/-- A path as the system reads it, which is up to its first zero byte. -/
def seen (p : Path) : Path := p.takeWhile (· != 0)

/-- The names that a walk goes through; a final slash asks for the directory itself. -/
def steps (p : Path) : List Text :=
  p.names ++ (if p.endsInSlash then [Path.dot] else [])

/-- Follows names from a directory, whose names are `inside`. A link at the end is followed on
demand, a link before the end always, by `onLink` from the directory it stands in. -/
def walkNames (tree : Tree) (follow : Bool)
    (onLink : Place → Path → List Text → Except Refusal Spot) :
    Place → Listing → List Text → Except Refusal Spot
  | here, _, [] => .ok ⟨here, some .directory⟩
  | here, inside, name :: rest =>
    if name = Path.dot then walkNames tree follow onLink here inside rest
    else if name = Path.dotDot then
      walkNames tree follow onLink here.tail (tree.inside here.tail) rest
    else if maxName < name.length then .error .nameTooLong
    else
      match inside.find? name with
      | none => if rest.isEmpty then .ok ⟨name :: here, none⟩ else .error .noEntry
      | some (.directory, below) => walkNames tree follow onLink (name :: here) below rest
      | some (.object _ (.link target), _) =>
        if rest.isEmpty && !follow then .ok ⟨name :: here, some (.link target)⟩
        else onLink here target rest
      | some (slot, _) =>
        if rest.isEmpty then .ok ⟨name :: here, some (tree.entryOf slot)⟩ else .error .notDirectory

/-- Follows names from a directory, through no more links than the budget allows. -/
def walk (tree : Tree) (follow : Bool) : Nat → Place → List Text → Except Refusal Spot
  | 0, here, names =>
    walkNames tree follow (fun _ _ _ => .error .tooManyLinks) here (tree.inside here) names
  | links + 1, here, names =>
    walkNames tree follow
      (fun here target rest =>
        walk tree follow links (if target.isAbsolute then [] else here) (steps target ++ rest))
      here (tree.inside here) names

/-- The place that a path names when `here` is the current directory. -/
def locate (tree : Tree) (here : Place) (follow : Bool) (p : Path) : Except Refusal Spot :=
  let p := seen p
  if p.isEmpty then .error .noEntry
  else if maxPath ≤ p.length then .error .nameTooLong
  else walk tree follow maxLinks (if p.isAbsolute then [] else here) (steps p)

end FlutterScaffold.Disk
