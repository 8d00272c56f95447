import FlutterScaffold.Text.Search

/-!
# Lines

A text is cut at its newlines, and joining the pieces of a cut gives the text back
(`intercalate_cut`). Beside the cut stand the questions that an edit asks of its
surroundings: how a line is indented, which line break the text uses, and how a block of lines is
written below a line.
-/

namespace FlutterScaffold.Text

/-- The pieces between the occurrences of a byte; a text without it is one piece. -/
def cut (stop : Byte) : Text → List Text
  | [] => [[]]
  | b :: rest =>
    if b = stop then [] :: cut stop rest
    else
      match cut stop rest with
      | [] => [[b]]
      | piece :: more => (b :: piece) :: more

theorem cut_ne_nil (stop : Byte) (t : Text) : cut stop t ≠ [] := by
  cases t with
  | nil => simp [cut]
  | cons b rest =>
    simp only [cut]
    split
    · simp
    · split <;> simp

/-- The pieces joined again are the text they were cut from. -/
theorem intercalate_cut (stop : Byte) (t : Text) : List.intercalate [stop] (cut stop t) = t := by
  induction t with
  | nil => rfl
  | cons b rest ih =>
    obtain ⟨piece, more, hl⟩ := List.exists_cons_of_ne_nil (cut_ne_nil stop rest)
    rw [hl] at ih
    by_cases hb : b = stop
    · subst hb
      simp only [cut, if_true, hl]
      rw [← ih]
      simp [List.intercalate]
    · simp only [cut, if_neg hb, hl]
      rw [← ih]
      cases more <;> simp [List.intercalate]

/-- The lines of a text; `n` newlines make `n + 1` lines. -/
def lines (t : Text) : List Text := cut Byte.newline t

/-- Removes the bytes of a class from the front. -/
def trimStart (p : Byte → Bool) (t : Text) : Text := t.dropWhile p

/-- Removes the bytes of a class from the end. -/
def trimEnd (p : Byte → Bool) (t : Text) : Text := (t.reverse.dropWhile p).reverse

/-- Removes the bytes of a class from both ends. -/
def trim (p : Byte → Bool) (t : Text) : Text := trimEnd p (trimStart p t)

/-- The bytes of the line that `offset` falls in, from the start of that line to the end of the
text. An offset past the end means the end. -/
def fromLineStart (t : Text) (offset : Nat) : Text :=
  ((t.take offset).reverse.takeWhile (· != Byte.newline)).reverse ++ t.drop offset

/-- Spaces and tabs at the start of the line that `offset` falls in. -/
def lineIndent (t : Text) (offset : Nat) : Text := (fromLineStart t offset).takeWhile Byte.isBlank

/-- An indentation holds blanks only. -/
theorem isBlank_of_mem_lineIndent {t : Text} {offset : Nat} {b : Byte}
    (h : b ∈ lineIndent t offset) : Byte.isBlank b = true := by
  have hall := List.all_takeWhile (p := Byte.isBlank) (l := fromLineStart t offset)
  exact List.all_eq_true.mp hall b h

/-- The two-byte line break. -/
def crlf : Text := [Byte.carriageReturn, Byte.newline]

/-- The line break a text uses: the two-byte one as soon as it occurs once. -/
def lineBreak (t : Text) : Text := if hasInfix crlf t then crlf else [Byte.newline]

/-- A block of lines, each written after a line break and an indentation. -/
def block (lineBreak indent : Text) (content : List Text) : Text :=
  content.flatMap fun line => lineBreak ++ indent ++ line

@[simp] theorem block_nil (lineBreak indent : Text) : block lineBreak indent [] = [] := rfl

@[simp] theorem block_cons (lineBreak indent line : Text) (more : List Text) :
    block lineBreak indent (line :: more) =
      lineBreak ++ indent ++ line ++ block lineBreak indent more := by
  simp [block]

end FlutterScaffold.Text
