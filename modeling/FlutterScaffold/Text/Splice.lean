import FlutterScaffold.Text.Byte

/-!
# Splices

An edit of a document is a list of insertions, each at an offset of the document as it was given.
`splice` sorts them by offset, keeping the listed order where offsets agree, and copies the document
once. No byte of the document is dropped: without insertions it is returned as it is
(`splice_nil`), and the length grows by what is inserted (`length_splice`).
-/

namespace FlutterScaffold

/-- Text to be put into a document at a byte offset. -/
structure Insertion where
  /-- Offset in the document as it was given; one past the end means the end. -/
  offset : Nat
  /-- The bytes to put there. -/
  text : Text
  deriving DecidableEq, Repr

namespace Insertion

/-- Places an insertion before the first one that does not stand earlier. -/
def orderedInsert (i : Insertion) : List Insertion → List Insertion
  | [] => [i]
  | j :: more => if i.offset ≤ j.offset then i :: j :: more else j :: orderedInsert i more

/-- Insertions by offset; those that share an offset keep their order. -/
def sort (insertions : List Insertion) : List Insertion := insertions.foldr orderedInsert []

/-- How many bytes a list of insertions adds. -/
def added : List Insertion → Nat
  | [] => 0
  | i :: more => i.text.length + added more

@[simp] theorem added_nil : added [] = 0 := rfl

@[simp] theorem added_cons (i : Insertion) (l : List Insertion) :
    added (i :: l) = i.text.length + added l := rfl

/-- The order of insertions does not matter to what they add. -/
theorem added_perm {l l' : List Insertion} (h : l.Perm l') : added l = added l' := by
  induction h with
  | nil => rfl
  | cons i _ ih => rw [added_cons, added_cons, ih]
  | swap i j l =>
    rw [added_cons, added_cons, added_cons, added_cons]
    omega
  | trans _ _ ih ih' => exact ih.trans ih'

theorem perm_orderedInsert (i : Insertion) (l : List Insertion) :
    (orderedInsert i l).Perm (i :: l) := by
  induction l with
  | nil => exact .refl _
  | cons j more ih =>
    simp only [orderedInsert]
    split
    · exact .refl _
    · exact (ih.cons j).trans (.swap i j more)

/-- Sorting loses no insertion. -/
theorem perm_sort (l : List Insertion) : (sort l).Perm l := by
  induction l with
  | nil => exact .refl _
  | cons i more ih => exact (perm_orderedInsert i (sort more)).trans (ih.cons i)

end Insertion

namespace Text

/-- Copies `rest`, which starts at offset `start`, and puts each insertion at its place. -/
def spliceFrom (start : Nat) (rest : Text) : List Insertion → Text
  | [] => rest
  | i :: more =>
    rest.take (i.offset - start) ++ i.text ++
      spliceFrom i.offset (rest.drop (i.offset - start)) more

/-- A document with insertions applied. -/
def splice (doc : Text) (insertions : List Insertion) : Text :=
  spliceFrom 0 doc (Insertion.sort insertions)

@[simp] theorem splice_nil (doc : Text) : splice doc [] = doc := rfl

theorem length_spliceFrom (start : Nat) (rest : Text) (l : List Insertion) :
    (spliceFrom start rest l).length = rest.length + Insertion.added l := by
  induction l generalizing start rest with
  | nil => rfl
  | cons i more ih =>
    simp only [spliceFrom, List.length_append, ih, List.length_drop, List.length_take,
      Insertion.added_cons]
    omega

/-- A splice adds exactly the bytes of its insertions. -/
theorem length_splice (doc : Text) (l : List Insertion) :
    (splice doc l).length = doc.length + Insertion.added l := by
  rw [splice, length_spliceFrom, Insertion.added_perm (Insertion.perm_sort l)]

end Text

end FlutterScaffold
