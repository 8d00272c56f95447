import FlutterScaffold.Shell.Pattern
import FlutterScaffold.Disk.Host

/-!
# File names by pattern

A field that is a pattern stands for the paths it fits, in the order of their bytes. Each component
of the pattern fits a name of its own, so that a slash is never part of what a star stands for, and
a name that starts with a dot is found only by a pattern that starts with one.
-/

namespace FlutterScaffold.Shell

open Disk (Host)

/-- The glyphs between the slashes of a field. -/
def components : List Glyph → List (List Glyph)
  | [] => [[]]
  | g :: rest =>
    if g.byte = Byte.slash then [] :: components rest
    else
      match components rest with
      | [] => [[g]]
      | first :: more => (g :: first) :: more

/-- The names in a directory, with the two that every directory has. -/
def namesIn (host : Host) (dir : Path) : List Text :=
  match Disk.locate host.tree host.here true (if dir.isEmpty then Path.dot else dir) with
  | .ok ⟨place, some .directory⟩ => Path.dot :: Path.dotDot :: (host.tree.inside place).names
  | _ => []

/-- The names in a directory that a pattern fits. -/
def matchesIn (host : Host) (dir : Path) (glyphs : List Glyph) : List Text :=
  let hidden := glyphs.head?.any (·.byte == byte '.')
  (namesIn host dir).filter fun name =>
    (hidden || name.head? != some (byte '.')) && Pattern.fits (Pattern.ofGlyphs glyphs) name

/-- The paths behind a beginning that some components fit. -/
def pathsFrom (host : Host) (start : Path) : List (List Glyph) → List Path
  | [] => [start]
  | glyphs :: more =>
    let names :=
      if Pattern.isWild glyphs then matchesIn host start glyphs else [Glyph.toText glyphs]
    if more.isEmpty then
      (names.map (start ++ ·)).filter fun p => (host.linkStatus p).isOk
    else names.flatMap fun name => pathsFrom host (start ++ name ++ Path.separator) more

/-- The paths that a field stands for; one that fits nothing stands for itself. -/
def globbed (host : Host) (field : List Glyph) : List Text :=
  let found := if Pattern.isWild field then pathsFrom host [] (components field) else []
  if found.isEmpty then [Glyph.toText field]
  else found.mergeSort fun p q => !decide (q < p)

end FlutterScaffold.Shell
