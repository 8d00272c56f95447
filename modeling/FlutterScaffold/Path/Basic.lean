import FlutterScaffold.Text.Line

/-!
# Paths

A path is kept as the text it was built from: joining adds one separator where it is needed and
changes nothing else, so a doubled slash or a `.` stays until the path is normalized. What a path
consists of, its file name and its parent are read off that text.
-/

namespace FlutterScaffold

/-- A path, as the text it was built from. -/
abbrev Path := Text

namespace Path

/-- The name of the directory itself. -/
def dot : Text := [byte '.']

/-- The name of the parent directory. -/
def dotDot : Text := [byte '.', byte '.']

/-- The separator of a path. -/
def separator : Text := [Byte.slash]

/-- Whether a path starts at the root. -/
def isAbsolute (p : Path) : Bool := p.head? = some Byte.slash

/-- What stands behind the last slash; empty for a path that ends in one. -/
def fileName (p : Path) : Text := (p.reverse.takeWhile (· != Byte.slash)).reverse

/-- The names of a path, without the empty ones between doubled slashes. -/
def names (p : Path) : List Text := (Text.cut Byte.slash p).filter (!·.isEmpty)

/-- Whether a path of at least one name ends in a slash. -/
def endsInSlash (p : Path) : Bool := !(names p).isEmpty && (fileName p).isEmpty

/-- The elements of a path: the root, the names, and an empty one behind a final slash. -/
def elements (p : Path) : List Text :=
  (if isAbsolute p then [separator] else []) ++ names p ++ (if endsInSlash p then [[]] else [])

/-- The path `q` as seen from `p`; an absolute `q` stands alone. -/
def join (p q : Path) : Path :=
  if isAbsolute q then q
  else if (fileName p).isEmpty then p ++ q
  else p ++ separator ++ q

/-- The path without its last element: the text up to the end of the element before. A path without
names is its own parent. -/
def parent (p : Path) : Path :=
  if (names p).isEmpty then p
  else
    let directory := p.take (p.length - (fileName p).length)
    let stripped := Text.trimEnd (· == Byte.slash) directory
    if stripped.isEmpty && isAbsolute p then separator else stripped

/-- The path with every run of slashes written as one. -/
def generic : Path → Path
  | [] => []
  | [b] => [b]
  | b :: c :: rest =>
    if b = Byte.slash ∧ c = Byte.slash then generic (c :: rest) else b :: generic (c :: rest)

/-- Joining behind an empty path adds nothing. -/
@[simp] theorem nil_join (q : Path) : join [] q = q := by
  unfold join
  split
  · rfl
  · rfl

/-- No name is empty. -/
theorem ne_nil_of_mem_names {p : Path} {name : Text} (h : name ∈ names p) : name ≠ [] := by
  have := (List.mem_filter.mp h).2
  simpa using this

end Path

end FlutterScaffold
