import FlutterScaffold.Text.Byte

/-!
# Segments of a name

A name that a user types is cut into segments, the words it is made of: every byte that is neither
letter nor digit separates, and inside a run of letters and digits a capital starts a new segment
when a small letter or a digit stands before it, or when it is the last capital of a run of capitals
(`HTTPServer` is `http` and `server`). Segments are written small, are never empty
(`ne_nil_of_mem_segmentsOf`), and differently spelled names with the same segments are one name.
-/

namespace FlutterScaffold.Name

open Byte

/-- Whether capital `b` starts a segment between its neighbours in a run of letters and digits. -/
def startsSegment (before b : Byte) (next : Option Byte) : Bool :=
  isUpper b && (isLower before || isDigit before || (isUpper before && next.any isLower))

/-- The segment under way, held last byte first; an empty one is dropped. -/
def closeSegment (current : Text) : List Text :=
  if current.isEmpty then [] else [current.reverse.map toLower]

/-- The segments of a text that follows the segment under way. -/
def segmentsFrom (current : Text) : Text → List Text
  | [] => closeSegment current
  | b :: rest =>
    if !isAlnum b then closeSegment current ++ segmentsFrom [] rest
    else if current.head?.any (startsSegment · b rest.head?) then
      closeSegment current ++ segmentsFrom [b] rest
    else segmentsFrom (b :: current) rest

/-- The words a text is made of, in small letters. -/
def segmentsOf (text : Text) : List Text := segmentsFrom [] text

private theorem ne_nil_of_mem_closeSegment {current s : Text} (h : s ∈ closeSegment current) :
    s ≠ [] := by
  unfold closeSegment at h
  split at h
  · simp at h
  · rename_i hne
    simp only [List.mem_singleton] at h
    subst h
    simpa [List.isEmpty_iff] using hne

/-- No segment is empty. -/
theorem ne_nil_of_mem_segmentsFrom {current text s : Text} (h : s ∈ segmentsFrom current text) :
    s ≠ [] := by
  induction text generalizing current with
  | nil => exact ne_nil_of_mem_closeSegment h
  | cons b rest ih =>
    simp only [segmentsFrom] at h
    split at h
    · rcases List.mem_append.mp h with h | h
      · exact ne_nil_of_mem_closeSegment h
      · exact ih h
    · split at h
      · rcases List.mem_append.mp h with h | h
        · exact ne_nil_of_mem_closeSegment h
        · exact ih h
      · exact ih h

theorem ne_nil_of_mem_segmentsOf {text s : Text} (h : s ∈ segmentsOf text) : s ≠ [] :=
  ne_nil_of_mem_segmentsFrom h

end FlutterScaffold.Name
