import FlutterScaffold.Path.Basic

/-!
# Normal forms of paths

Normalizing a path works on its names alone, without looking at any directory: `.` and doubled
slashes go away, and `..` cancels the ordinary name before it. What is left starts with any number
of `..` and goes on with ordinary names. The relative path from one directory to another is counted
out on the same names, and a path stays inside its start when its normal form holds no `..`.
-/

namespace FlutterScaffold.Path

/-- One name put on a stack of names, innermost first. -/
def pushName (absolute : Bool) (stack : List Text) (name : Text) : List Text :=
  if name = dot then stack
  else if name = dotDot then
    match stack with
    | [] => if absolute then [] else [dotDot]
    | top :: below => if top = dotDot then dotDot :: stack else below
  else name :: stack

/-- The names of a normal form. -/
def normalNames (absolute : Bool) (names : List Text) : List Text :=
  (names.foldl (pushName absolute) []).reverse

/-- Whether a normal form ends in a slash: the path named a directory by its last element. -/
def keepsSlash (p : Path) (normal : List Text) : Bool :=
  let last := fileName p
  (last.isEmpty || last = dot || last = dotDot) && normal.getLast?.any (· != dotDot)

/-- The normal form of a path; the empty path is its own. -/
def normal (p : Path) : Path :=
  if p.isEmpty then p
  else
    let kept := normalNames (isAbsolute p) (names p)
    let result :=
      (if isAbsolute p then separator else []) ++ List.intercalate separator kept ++
        (if keepsSlash p kept then separator else [])
    if result.isEmpty then dot else result

/-- Two lists without their common beginning. -/
def dropCommon : List Text → List Text → List Text × List Text
  | a :: as, b :: bs => if a = b then dropCommon as bs else (a :: as, b :: bs)
  | as, bs => (as, bs)

/-- How many directories a list of elements descends. -/
def depth (elements : List Text) : Int :=
  elements.foldl
    (fun n e => if e = dotDot then n - 1 else if e.isEmpty || e = dot then n else n + 1) 0

/-- The path that leads from directory `base` to `p`, counted out on their elements; empty when
there is none, because only one is absolute or `base` climbs. -/
def relativeTo (p base : Path) : Path :=
  if isAbsolute p != isAbsolute base then []
  else
    match dropCommon (elements p) (elements base) with
    | ([], []) => dot
    | (target, source) =>
      let up := depth source
      if up = 0 && target.head?.all (·.isEmpty) then dot
      else if 0 ≤ up then (List.replicate up.toNat dotDot ++ target).foldl join []
      else []

/-- Whether a path is relative and never leads above its start. -/
def isInside (p : Path) : Bool :=
  !isAbsolute p && !(normalNames false (names p)).contains dotDot

end FlutterScaffold.Path
