import Mathlib.Tactic
import Mathlib.Data.List.TakeWhile
import FlutterScaffold.Text.Line

/-!
# Lines of a text that is put together

Lines of a concatenation are lines of its parts where a newline separates them, and only the two
lines that meet are joined otherwise. Compared without their margins, lines see neither the byte in
front of a two-byte line break nor blanks at the end of a line. The indentation at an offset is told
by the line the offset falls in, so text put between earlier lines leaves it alone.
-/

namespace FlutterScaffold.Text

open Byte (newline carriageReturn isMargin isBlank)

/-- Cutting at a separator splits the list of pieces at the same place. -/
theorem cut_append_cons (stop : Byte) (a b : Text) :
    cut stop (a ++ stop :: b) = cut stop a ++ cut stop b := by
  induction a with
  | nil => simp [cut]
  | cons x a ih =>
    by_cases hx : x = stop
    · simp [cut, hx, ih]
    · obtain ⟨piece, more, hl⟩ := List.exists_cons_of_ne_nil (cut_ne_nil stop a)
      simp [cut, hx, ih, hl]

/-- A text without the separator is one piece. -/
theorem cut_eq_singleton {stop : Byte} {t : Text} (h : stop ∉ t) : cut stop t = [t] := by
  induction t with
  | nil => rfl
  | cons b rest ih =>
    rw [List.mem_cons, not_or] at h
    simp [cut, Ne.symm h.1, ih h.2]

/-- Pieces that are joined by a separator are cut apart again. -/
theorem cut_intercalate {stop : Byte} {pieces : List Text} (hne : pieces ≠ [])
    (h : ∀ piece ∈ pieces, stop ∉ piece) : cut stop (List.intercalate [stop] pieces) = pieces := by
  induction pieces with
  | nil => exact absurd rfl hne
  | cons piece more ih =>
    obtain ⟨hpiece, hmore⟩ := List.forall_mem_cons.mp h
    cases more with
    | nil => rw [List.intercalate_singleton, cut_eq_singleton hpiece]
    | cons next more =>
      rw [List.intercalate_cons_cons, List.append_assoc, List.singleton_append, cut_append_cons,
        cut_eq_singleton hpiece, ih (List.cons_ne_nil _ _) hmore]
      rfl

/-- Pieces that each end with a separator are cut as they were put together. -/
theorem cut_flatMap {stop : Byte} {pieces : List Text} (h : ∀ piece ∈ pieces, stop ∉ piece) :
    cut stop (pieces.flatMap (· ++ [stop])) = pieces ++ [[]] := by
  induction pieces with
  | nil => rfl
  | cons piece more ih =>
    obtain ⟨hpiece, hmore⟩ := List.forall_mem_cons.mp h
    rw [List.flatMap_cons, List.append_assoc, List.singleton_append, cut_append_cons,
      cut_eq_singleton hpiece, ih hmore]
    rfl

/-- No piece of a cut holds the separator. -/
theorem not_mem_of_mem_cut {stop : Byte} {t piece : Text} (h : piece ∈ cut stop t) :
    stop ∉ piece := by
  induction t generalizing piece with
  | nil =>
    obtain rfl := List.mem_singleton.mp h
    simp
  | cons b t ih =>
    rw [cut] at h
    split at h
    · rcases List.mem_cons.mp h with rfl | h
      · simp
      · exact ih h
    · rename_i hb
      split at h
      · obtain rfl := List.mem_singleton.mp h
        simpa using Ne.symm hb
      · rename_i first more hcut
        rw [hcut] at ih
        rcases List.mem_cons.mp h with rfl | h
        · exact List.not_mem_cons_of_ne_of_not_mem (Ne.symm hb) (ih (List.mem_cons_self ..))
        · exact ih (List.mem_cons_of_mem _ h)

/-- A text is one line, or its first line stands in front of a newline. -/
theorem exists_firstLine (t : Text) :
    newline ∉ t ∨ ∃ l b, t = l ++ newline :: b ∧ newline ∉ l := by
  by_cases h : newline ∈ t
  · exact Or.inr (List.eq_append_cons_of_mem h)
  · exact Or.inl h

/-- A text is a last line, or a line in front of a newline and what follows. -/
@[elab_as_elim]
theorem induction_on_lines {P : Text → Prop} (t : Text) (last : ∀ l, newline ∉ l → P l)
    (line : ∀ l rest, newline ∉ l → P rest → P (l ++ newline :: rest)) : P t := by
  induction hn : t.length using Nat.strong_induction_on generalizing t with
  | h n ih =>
    rcases exists_firstLine t with ht | ⟨l, rest, rfl, hl⟩
    · exact last t ht
    · refine line l rest hl (ih rest.length ?_ rest rfl)
      rw [← hn, List.length_append, List.length_cons]
      omega

/-- A text without a newline is one line. -/
theorem lines_of_not_mem {l : Text} (hl : newline ∉ l) : lines l = [l] := cut_eq_singleton hl

/-- A line in front of a newline is the first line. -/
theorem lines_append_cons {l : Text} (hl : newline ∉ l) (rest : Text) :
    lines (l ++ newline :: rest) = l :: lines rest := by
  rw [lines, cut_append_cons, cut_eq_singleton hl]
  rfl

/-- Lines that each end with a newline stand in front of the lines behind them. -/
theorem lines_flatMap_append {content : List Text} (h : ∀ l ∈ content, newline ∉ l) (rest : Text) :
    lines (content.flatMap (· ++ [newline]) ++ rest) = content ++ lines rest := by
  induction content with
  | nil => rfl
  | cons l content ih =>
    obtain ⟨hl, hcontent⟩ := List.forall_mem_cons.mp h
    rw [List.flatMap_cons, List.append_assoc, List.append_assoc, List.singleton_append,
      lines_append_cons hl, ih hcontent]
    rfl

/-- A text is one line, or its last line stands behind a newline. -/
theorem exists_lastLine (t : Text) :
    newline ∉ t ∨ ∃ a l, t = a ++ newline :: l ∧ newline ∉ l := by
  rcases exists_firstLine t.reverse with h | ⟨l, b, ht, hl⟩
  · exact Or.inl (by simpa using h)
  · refine Or.inr ⟨b.reverse, l.reverse, ?_, by simpa using hl⟩
    simpa using congrArg List.reverse ht

/-! ## Trimming -/

/-- Bytes of the class in front of a text are trimmed away. -/
theorem trim_append_left {p : Byte → Bool} {m t : Text} (hm : ∀ b ∈ m, p b) :
    trim p (m ++ t) = trim p t := by
  rw [trim, trim, trimStart, List.dropWhile_append_of_pos hm]
  rfl

/-- Bytes of the class at the end of a text are cut off. -/
theorem trimEnd_append_right {p : Byte → Bool} {m : Text} (hm : ∀ b ∈ m, p b) (t : Text) :
    trimEnd p (t ++ m) = trimEnd p t := by
  rw [trimEnd, trimEnd, List.reverse_append, List.dropWhile_append_of_pos (by simpa using hm)]

/-- A byte outside the class keeps all that stands in front of it. -/
theorem trimEnd_append_of_mem {p : Byte → Bool} {m : Text} {b : Byte} (hb : b ∈ m)
    (hp : p b = false) (t : Text) : trimEnd p (t ++ m) = t ++ trimEnd p m := by
  have hne : m.reverse.dropWhile p ≠ [] := by
    intro hnil
    have hall := List.dropWhile_eq_nil_iff.mp hnil b (List.mem_reverse.mpr hb)
    rw [hp] at hall
    exact absurd hall (by decide)
  rw [trimEnd, trimEnd, List.reverse_append, List.dropWhile_append, if_neg (by simpa using hne)]
  simp

/-- Bytes of the class behind a text are trimmed away. -/
theorem trim_append_right {p : Byte → Bool} {t m : Text} (hm : ∀ b ∈ m, p b) :
    trim p (t ++ m) = trim p t := by
  simp only [trim, trimStart]
  rw [List.dropWhile_append]
  split
  · rename_i hall
    have hnil : t.dropWhile p = [] := by simpa using hall
    rw [hnil, List.dropWhile_eq_nil_iff.mpr hm]
  · exact trimEnd_append_right hm _

/-- A text that neither starts nor ends with a byte of the class stays as it is. -/
theorem trim_eq_self {p : Byte → Bool} {b c : Byte} {t u : Text} (ht : t = b :: u)
    (hc : t.getLast? = some c) (hpb : p b = false) (hpc : p c = false) : trim p t = t := by
  have hstart : trimStart p t = t := by simp [trimStart, ht, hpb]
  obtain ⟨v, hv⟩ := List.getLast?_eq_some_iff.mp hc
  rw [trim, hstart, trimEnd, hv]
  simp [hpc]

/-- Bytes of the class alone leave nothing. -/
theorem trim_eq_nil {p : Byte → Bool} {m : Text} (hm : ∀ b ∈ m, p b) : trim p m = [] := by
  have h := trim_append_left (t := []) hm
  rwa [List.append_nil] at h

/-- A text keeps the byte that it ends with when that byte is outside the class. -/
theorem getLast?_trim {p : Byte → Bool} {t : Text} {b : Byte} (h : t.getLast? = some b)
    (hb : p b = false) : (trim p t).getLast? = some b := by
  obtain ⟨init, rfl⟩ := List.getLast?_eq_some_iff.mp h
  have hstart : trimStart p (init ++ [b]) = init.dropWhile p ++ [b] := by
    rw [trimStart, List.dropWhile_append]
    split
    · rename_i hempty
      rw [List.isEmpty_iff.mp hempty]
      simp [hb]
    · rfl
  rw [trim, hstart, trimEnd]
  simp [hb]

/-! ## Lines without their margins -/

/-- The lines of a text without their margins, the form in which declarations are looked for. -/
def bareLines (t : Text) : List Text := (lines t).map (trim isMargin)

/-- A newline separates the lines of two texts. -/
theorem bareLines_append_cons (a b : Text) :
    bareLines (a ++ newline :: b) = bareLines a ++ bareLines b := by
  rw [bareLines, lines, cut_append_cons, List.map_append]
  rfl

/-- A text without a newline is one line, here without its margins. -/
theorem bareLines_of_not_mem {l : Text} (h : newline ∉ l) : bareLines l = [trim isMargin l] := by
  rw [bareLines, lines, cut_eq_singleton h]
  rfl

/-- A margin stays on its line. -/
theorem newline_not_mem_of_isMargin {m : Text} (hm : ∀ b ∈ m, isMargin b) : newline ∉ m :=
  fun h => absurd (hm _ h) (by decide)

/-- A margin at the end of a text shows in none of its lines. -/
theorem bareLines_append_margin {a m : Text} (hm : ∀ b ∈ m, isMargin b) :
    bareLines (a ++ m) = bareLines a := by
  have hnm := newline_not_mem_of_isMargin hm
  rcases exists_lastLine a with ha | ⟨a, l, rfl, hl⟩
  · rw [bareLines_of_not_mem ha, bareLines_of_not_mem (by simp [ha, hnm]), trim_append_right hm]
  · rw [List.append_assoc, List.cons_append, bareLines_append_cons, bareLines_append_cons,
      bareLines_of_not_mem hl, bareLines_of_not_mem (List.not_mem_append hl hnm),
      trim_append_right hm]

/-- A margin at the start of a text shows in none of its lines. -/
theorem bareLines_margin_append {m b : Text} (hm : ∀ x ∈ m, isMargin x) :
    bareLines (m ++ b) = bareLines b := by
  have hnm := newline_not_mem_of_isMargin hm
  rcases exists_firstLine b with hb | ⟨l, b, rfl, hl⟩
  · rw [bareLines_of_not_mem hb, bareLines_of_not_mem (by simp [hb, hnm]), trim_append_left hm]
  · rw [← List.append_assoc, bareLines_append_cons, bareLines_append_cons,
      bareLines_of_not_mem hl, bareLines_of_not_mem (by simp [hl, hnm]), trim_append_left hm]

/-- The two spellings of a line break. -/
def IsLineBreak (t : Text) : Prop := t = [newline] ∨ t = crlf

/-- The line break that a text uses is one of the two. -/
theorem isLineBreak_lineBreak (t : Text) : IsLineBreak (lineBreak t) := by
  unfold lineBreak
  split
  · exact Or.inr rfl
  · exact Or.inl rfl

/-- A line break is a newline behind its ending. -/
theorem IsLineBreak.exists_eq {nl : Text} (h : IsLineBreak nl) :
    ∃ ending, nl = ending ++ [newline] ∧ newline ∉ ending := by
  rcases h with rfl | rfl
  · exact ⟨[], rfl, by simp⟩
  · exact ⟨[carriageReturn], rfl, by decide⟩

/-- Either line break separates the lines of two texts. -/
theorem bareLines_append_lineBreak {nl : Text} (hnl : IsLineBreak nl) (a b : Text) :
    bareLines (a ++ (nl ++ b)) = bareLines a ++ bareLines b := by
  rcases hnl with rfl | rfl
  · exact bareLines_append_cons a b
  · have hcr : ∀ x ∈ [carriageReturn], isMargin x := by simp [isMargin]
    have h := bareLines_append_cons (a ++ [carriageReturn]) b
    rw [bareLines_append_margin hcr, List.append_assoc] at h
    exact h

/-- The first line of a block stands alone below the text in front of it. -/
theorem bareLines_append_block {nl indent : Text} (hnl : IsLineBreak nl)
    (hindent : ∀ x ∈ indent, isBlank x) (a line b : Text) (more : List Text) :
    bareLines (a ++ (block nl indent (line :: more) ++ b)) =
      bareLines a ++ bareLines (line ++ (block nl indent more ++ b)) := by
  have hmargin : ∀ x ∈ indent, isMargin x := fun x hx => by simp [isMargin, hindent x hx]
  rw [block_cons, List.append_assoc, List.append_assoc, List.append_assoc,
    bareLines_append_lineBreak hnl, bareLines_margin_append hmargin]

/-! ## First and last lines -/

/-- What stands in front of the first newline of a text. -/
def firstLine (t : Text) : Text := t.takeWhile (· != newline)

/-- What stands behind the last newline of a text. -/
def lastLine (t : Text) : Text := (t.reverse.takeWhile (· != newline)).reverse

/-- The first line ends at the first newline. -/
theorem firstLine_append_cons {l b : Text} (hl : newline ∉ l) :
    firstLine (l ++ newline :: b) = l := by
  have hall : ∀ x ∈ l, (x != newline) = true := by
    intro x hx
    simpa using fun h : x = newline => hl (h ▸ hx)
  rw [firstLine, List.takeWhile_append_of_pos hall]
  simp

/-- A text without a newline is its own first line. -/
theorem firstLine_of_not_mem {l : Text} (hl : newline ∉ l) : firstLine l = l := by
  have hall : ∀ x ∈ l, (x != newline) = true := by
    intro x hx
    simpa using fun h : x = newline => hl (h ▸ hx)
  exact List.takeWhile_eq_self_iff.mpr hall

/-- The last line starts behind the last newline. -/
theorem lastLine_append_cons {a l : Text} (hl : newline ∉ l) :
    lastLine (a ++ newline :: l) = l := by
  have hall : ∀ b ∈ l.reverse, (b != newline) = true := by
    intro b hb
    simpa using fun h : b = newline => hl (h ▸ List.mem_reverse.mp hb)
  rw [lastLine, List.reverse_append, List.reverse_cons, List.append_assoc,
    List.takeWhile_append_of_pos hall]
  simp

/-- A text without a newline is its own last line. -/
theorem lastLine_of_not_mem {l : Text} (hl : newline ∉ l) : lastLine l = l := by
  have hall : ∀ b ∈ l.reverse, (b != newline) = true := by
    intro b hb
    simpa using fun h : b = newline => hl (h ▸ List.mem_reverse.mp hb)
  rw [lastLine, List.takeWhile_eq_self_iff.mpr hall, List.reverse_reverse]

/-- The first line goes back while no newline precedes. -/
theorem firstLine_append {a b : Text} (ha : newline ∉ a) :
    firstLine (a ++ b) = a ++ firstLine b := by
  rcases exists_firstLine b with hb | ⟨l, b, rfl, hl⟩
  · rw [firstLine_of_not_mem hb, firstLine_of_not_mem (by simp [ha, hb])]
  · rw [← List.append_assoc, firstLine_append_cons hl,
      firstLine_append_cons (List.not_mem_append ha hl)]

/-- The first line ends at a newline, whatever follows. -/
theorem firstLine_append_of_mem {a : Text} (ha : newline ∈ a) (b : Text) :
    firstLine (a ++ b) = firstLine a := by
  obtain ⟨l, r, rfl, hl⟩ := List.eq_append_cons_of_mem ha
  rw [List.append_assoc, List.cons_append, firstLine_append_cons hl, firstLine_append_cons hl]

/-- The last line goes on while no newline follows. -/
theorem lastLine_append {a b : Text} (hb : newline ∉ b) : lastLine (a ++ b) = lastLine a ++ b := by
  rcases exists_lastLine a with ha | ⟨a, l, rfl, hl⟩
  · rw [lastLine_of_not_mem ha, lastLine_of_not_mem (by simp [ha, hb])]
  · rw [List.append_assoc, List.cons_append, lastLine_append_cons hl,
      lastLine_append_cons (by simp [hl, hb])]

/-- A first line holds no newline. -/
theorem newline_not_mem_firstLine (t : Text) : newline ∉ firstLine t := by
  rcases exists_firstLine t with ht | ⟨l, b, rfl, hl⟩
  · rwa [firstLine_of_not_mem ht]
  · rwa [firstLine_append_cons hl]

/-- A text with an empty last line is empty or ends with a newline. -/
theorem eq_nil_or_of_lastLine_eq_nil {a : Text} (h : lastLine a = []) :
    a = [] ∨ ∃ b, a = b ++ [newline] := by
  rcases exists_lastLine a with ha | ⟨a, l, rfl, hl⟩
  · rw [lastLine_of_not_mem ha] at h
    exact Or.inl h
  · rw [lastLine_append_cons hl] at h
    exact Or.inr ⟨a, by rw [h]⟩

/-- A text is its first line and what goes on behind it, at a newline if at all. -/
theorem exists_append_firstLine (t : Text) : ∃ r, t = firstLine t ++ r ∧ firstLine r = [] := by
  rcases exists_firstLine t with ht | ⟨l, b, rfl, hl⟩
  · exact ⟨[], by rw [firstLine_of_not_mem ht, List.append_nil], rfl⟩
  · exact ⟨newline :: b, by rw [firstLine_append_cons hl], rfl⟩

/-- What goes on at the first newline of a text. -/
def fromNewline (t : Text) : Text := t.dropWhile (· != newline)

/-- A text goes on at its first newline. -/
theorem fromNewline_append_cons {l : Text} (hl : newline ∉ l) (b : Text) :
    fromNewline (l ++ newline :: b) = newline :: b := by
  have hall : ∀ x ∈ l, (x != newline) = true := by
    intro x hx
    simpa using fun h : x = newline => hl (h ▸ hx)
  rw [fromNewline, List.dropWhile_append_of_pos hall]
  simp

/-- What goes on at a newline is followed by what follows the text. -/
theorem fromNewline_append_of_mem {a : Text} (ha : newline ∈ a) (b : Text) :
    fromNewline (a ++ b) = fromNewline a ++ b := by
  obtain ⟨l, r, rfl, hl⟩ := List.eq_append_cons_of_mem ha
  rw [List.append_assoc, List.cons_append, fromNewline_append_cons hl, fromNewline_append_cons hl,
    List.cons_append]

/-- A text with the given ending in place of what stands between an offset and the end of its
line. -/
def endLineAt (ending : Text) (t : Text) (offset : Nat) : Text :=
  t.take offset ++ (ending ++ fromNewline (t.drop offset))

/-- The line that the first of two texts ends on is ended behind it. -/
theorem endLineAt_append (ending a b : Text) :
    endLineAt ending (a ++ b) a.length = a ++ (ending ++ fromNewline b) := by
  rw [endLineAt, List.take_left, List.drop_left]

section LineBreak

variable {nl : Text} (hnl : IsLineBreak nl)
include hnl

/-- The ending of a line break makes a line break of the newline behind it. -/
theorem IsLineBreak.prefix_ending_append {a : Text} (ha : newline ∈ a) :
    nl <+: nl.dropLast ++ fromNewline a := by
  obtain ⟨ending, rfl, -⟩ := hnl.exists_eq
  obtain ⟨l, r, rfl, hl⟩ := List.eq_append_cons_of_mem ha
  rw [List.dropLast_concat, fromNewline_append_cons hl]
  exact ⟨r, by simp⟩

/-- A line break in front of a text ends at the first newline. -/
theorem IsLineBreak.prefix_of_append {a b : Text} (ha : newline ∈ a) (h : nl <+: a ++ b) :
    nl <+: a := by
  obtain ⟨ending, rfl, hending⟩ := hnl.exists_eq
  obtain ⟨l, r, rfl, hl⟩ := List.eq_append_cons_of_mem ha
  obtain ⟨more, hmore⟩ := h
  rw [List.append_assoc, List.singleton_append, List.append_assoc, List.cons_append] at hmore
  have hfirst := congrArg firstLine hmore
  rw [firstLine_append_cons hending, firstLine_append_cons hl] at hfirst
  exact ⟨r, by rw [hfirst]; simp⟩

end LineBreak

/-- Where nothing but a margin follows on the line, a byte of another kind stands behind its end. -/
theorem newline_mem_of_isMargin {a b : Text} {x : Byte} (h : ∀ y ∈ firstLine (a ++ b), isMargin y)
    (hx : x ∈ a) (hmargin : isMargin x = false) : newline ∈ a := by
  by_contra hnot
  rw [firstLine_append hnot] at h
  rw [h x (List.mem_append_left _ hx)] at hmargin
  exact absurd hmargin (by decide)

/-- What continues the first line does not change the lines behind it. -/
theorem tail_lines_append {a b : Text} (ha : newline ∉ a) :
    (lines (a ++ b)).tail = (lines b).tail := by
  rcases exists_firstLine b with hb | ⟨l, b, rfl, hl⟩
  · rw [lines, lines, cut_eq_singleton hb, cut_eq_singleton (List.not_mem_append ha hb)]
    rfl
  · rw [lines, lines, ← List.append_assoc, cut_append_cons, cut_append_cons, cut_eq_singleton hl,
      cut_eq_singleton (List.not_mem_append ha hl)]
    rfl

/-- The lines of a text are those before its last line and the last line itself. -/
theorem bareLines_eq_dropLast_append (t : Text) :
    bareLines t = (bareLines t).dropLast ++ [trim isMargin (lastLine t)] := by
  rcases exists_lastLine t with ht | ⟨a, l, rfl, hl⟩
  · rw [lastLine_of_not_mem ht, bareLines_of_not_mem ht]
    rfl
  · rw [lastLine_append_cons hl, bareLines_append_cons, bareLines_of_not_mem hl,
      List.dropLast_concat]

/-- The lines of a text are its first line and those behind it. -/
theorem bareLines_eq_cons_tail (t : Text) :
    bareLines t = trim isMargin (firstLine t) :: (bareLines t).tail := by
  rcases exists_firstLine t with ht | ⟨l, b, rfl, hl⟩
  · rw [firstLine_of_not_mem ht, bareLines_of_not_mem ht]
    rfl
  · rw [firstLine_append_cons hl, bareLines_append_cons, bareLines_of_not_mem hl]
    rfl

/-- Where two texts meet, the last line of one and the first line of the other become one line. -/
theorem bareLines_append (a b : Text) :
    bareLines (a ++ b) = (bareLines a).dropLast ++
      trim isMargin (lastLine a ++ firstLine b) :: (bareLines b).tail := by
  have hjoin (l : Text) (hl : newline ∉ l) : bareLines (l ++ b) =
      trim isMargin (l ++ firstLine b) :: (bareLines b).tail := by
    rcases exists_firstLine b with hb | ⟨f, b, rfl, hf⟩
    · rw [firstLine_of_not_mem hb, bareLines_of_not_mem hb,
        bareLines_of_not_mem (List.not_mem_append hl hb)]
      rfl
    · rw [firstLine_append_cons hf, ← List.append_assoc, bareLines_append_cons,
        bareLines_append_cons, bareLines_of_not_mem hf,
        bareLines_of_not_mem (List.not_mem_append hl hf)]
      rfl
  rcases exists_lastLine a with ha | ⟨a, l, rfl, hl⟩
  · rw [lastLine_of_not_mem ha, bareLines_of_not_mem ha, hjoin a ha]
    rfl
  · rw [lastLine_append_cons hl, List.append_assoc, List.cons_append, bareLines_append_cons,
      bareLines_append_cons, bareLines_of_not_mem hl, List.dropLast_concat, hjoin l hl]

/-- Where nothing but a margin goes on the last line of a text, what follows is told by the lines
behind that margin. -/
theorem bareLines_append_of_margin {b : Text} (hb : ∀ x ∈ firstLine b, isMargin x) (a : Text) :
    bareLines (a ++ b) = bareLines a ++ (bareLines b).tail := by
  rw [bareLines_append, trim_append_right hb, bareLines_eq_dropLast_append a]
  simp

/-- A block of lines written where nothing but a margin follows stands between the lines around
it. -/
theorem bareLines_insert_of_margin {nl indent b : Text} (hnl : IsLineBreak nl)
    (hindent : ∀ x ∈ indent, isBlank x) (hb : ∀ x ∈ firstLine b, isMargin x) (a : Text)
    {content : List Text} (hcontent : ∀ l ∈ content, newline ∉ l) :
    bareLines (a ++ (block nl indent content ++ b)) =
      bareLines a ++ (content.map (trim isMargin) ++ (bareLines b).tail) := by
  induction content generalizing a with
  | nil => exact bareLines_append_of_margin hb a
  | cons l content ih =>
    obtain ⟨hl, hcontent⟩ := List.forall_mem_cons.mp hcontent
    rw [bareLines_append_block hnl hindent, ih l hcontent, bareLines_of_not_mem hl]
    simp

/-- What continues the first line does not change the lines behind it, margins apart. -/
theorem tail_bareLines_append {m : Text} (hm : newline ∉ m) (b : Text) :
    (bareLines (m ++ b)).tail = (bareLines b).tail := by
  rw [bareLines, bareLines, ← List.map_tail, ← List.map_tail, tail_lines_append hm]

/-- Text within a line goes into the line where two texts meet. -/
theorem bareLines_append_append {m : Text} (hm : newline ∉ m) (a b : Text) :
    bareLines (a ++ (m ++ b)) = (bareLines a).dropLast ++
      trim isMargin (lastLine a ++ (m ++ firstLine b)) :: (bareLines b).tail := by
  rw [bareLines_append, firstLine_append hm, tail_bareLines_append hm]

/-- A line break written between two texts ends the line where they meet. -/
theorem bareLines_insert_lineBreak {nl indent : Text} (hnl : IsLineBreak nl)
    (hindent : ∀ x ∈ indent, isBlank x) (a b : Text) :
    bareLines (a ++ (nl ++ (indent ++ b))) = bareLines a ++ bareLines b := by
  rw [bareLines_append_lineBreak hnl,
    bareLines_margin_append fun x hx => by simp [isMargin, hindent x hx]]

/-- Every text has a line. -/
theorem bareLines_ne_nil (t : Text) : bareLines t ≠ [] := by
  rw [bareLines_eq_cons_tail]
  simp

/-- Blocks with one indentation go on from each other. -/
theorem block_append (nl indent : Text) (init more : List Text) :
    block nl indent (init ++ more) = block nl indent init ++ block nl indent more :=
  List.flatMap_append

/-- A block holds its line breaks, its indentations and its lines. -/
theorem mem_block {nl indent : Text} {content : List Text} {b : Byte}
    (h : b ∈ block nl indent content) : b ∈ nl ∨ b ∈ indent ∨ ∃ line ∈ content, b ∈ line := by
  obtain ⟨line, hline, hb⟩ := List.mem_flatMap.mp h
  rcases List.mem_append.mp hb with hb | hb
  · rcases List.mem_append.mp hb with hb | hb
    · exact Or.inl hb
    · exact Or.inr (Or.inl hb)
  · exact Or.inr (Or.inr ⟨line, hline, hb⟩)

/-- The lines of a block in front of a line break stand between the lines around it, each with its
indentation and with what the line break has in front of the newline. -/
theorem lines_append_block {ending indent : Text} {content : List Text}
    (h : ∀ l ∈ content, newline ∉ indent ++ (l ++ ending)) (a b : Text) :
    lines (a ++ (block (ending ++ [newline]) indent content ++ (ending ++ newline :: b))) =
      lines (a ++ ending) ++ (content.map (fun l => indent ++ (l ++ ending)) ++ lines b) := by
  induction content generalizing a with
  | nil =>
    rw [block_nil, List.nil_append, ← List.append_assoc, lines, cut_append_cons]
    rfl
  | cons l content ih =>
    obtain ⟨hl, hcontent⟩ := List.forall_mem_cons.mp h
    have hcut : a ++ (block (ending ++ [newline]) indent (l :: content) ++
      (ending ++ newline :: b)) =
        (a ++ ending) ++ newline ::
          ((indent ++ l) ++ (block (ending ++ [newline]) indent content ++
            (ending ++ newline :: b))) := by
      simp
    rw [← List.append_assoc] at hl
    have hrest := ih hcontent (indent ++ l)
    rw [lines_of_not_mem hl] at hrest
    rw [hcut, lines, cut_append_cons, ← lines, ← lines, hrest]
    simp

/-- What follows a block goes on behind its last line. -/
theorem lines_append_block_concat {ending indent : Text} {init : List Text}
    (h : ∀ l ∈ init, newline ∉ indent ++ (l ++ ending)) (a last b : Text) :
    lines (a ++ (block (ending ++ [newline]) indent (init ++ [last]) ++ b)) =
      lines (a ++ ending) ++
        (init.map (fun l => indent ++ (l ++ ending)) ++ lines (indent ++ (last ++ b))) := by
  rw [← lines_append_block h, block_append, block_cons, block_nil]
  simp only [List.append_assoc, List.append_nil, List.cons_append, List.nil_append]

/-- A block ends with the last of its lines. -/
theorem lastLine_block {nl indent : Text} (hnl : IsLineBreak nl)
    (hindent : ∀ x ∈ indent, isBlank x) (last : Text) (hlast : newline ∉ last) (a : Text)
    (init : List Text) :
    lastLine (a ++ block nl indent (init ++ [last])) = indent ++ last := by
  have hmargin : ∀ x ∈ indent, isMargin x := fun x hx => by simp [isMargin, hindent x hx]
  have hnot : newline ∉ indent ++ last :=
    List.not_mem_append (newline_not_mem_of_isMargin hmargin) hlast
  obtain ⟨r, hr, -⟩ := hnl.exists_eq
  have h := lastLine_append_cons (a := a ++ block nl indent init ++ r) hnot
  simpa [block_append, hr] using h

/-! ## Indentation -/

/-- What is taken from the front ends at a byte that is not taken. -/
theorem takeWhile_append_cons {p : Byte → Bool} {c : Byte} (hc : p c = false) (l x : Text) :
    (l ++ c :: x).takeWhile p = l.takeWhile p := by
  rw [List.takeWhile_append, List.takeWhile_cons, hc]
  split
  · rename_i hlen
    have hall : l.takeWhile p = l := (List.takeWhile_prefix p).eq_of_length hlen
    simp [hall]
  · rfl

/-- The line that an offset of the second text falls in starts in the first one if no newline stands
between. -/
theorem fromLineStart_add (a b : Text) (k : Nat) : fromLineStart (a ++ b) (a.length + k) =
    lastLine (a ++ b.take k) ++ b.drop k := by
  rw [fromLineStart, List.take_length_add_append, List.drop_length_add_append, lastLine]

/-- The indentation at an offset of the second text is that of its line. -/
theorem lineIndent_add (a b : Text) (k : Nat) : lineIndent (a ++ b) (a.length + k) =
    (lastLine (a ++ b.take k) ++ b.drop k).takeWhile isBlank := by
  rw [lineIndent, fromLineStart_add]

/-- The indentation at a byte that is no blank is that of the line in front of it. -/
theorem lineIndent_concat {c : Byte} (hc : isBlank c = false) (a b : Text) :
    lineIndent (a ++ [c] ++ b) ((a ++ [c]).length - 1) = (lastLine a).takeWhile isBlank := by
  have h := lineIndent_add a (c :: b) 0
  rw [List.take_zero, List.drop_zero, List.append_nil, takeWhile_append_cons hc] at h
  simpa using h

/-- Text put in front of `b` leaves the indentation inside and behind `b` alone when it leaves the
indentation of the line that `b` goes on with. -/
theorem lineIndent_insert {a i b : Text} {o : Nat} (ho : a.length ≤ o)
    (h : ∀ x, (lastLine (a ++ i) ++ x).takeWhile isBlank = (lastLine a ++ x).takeWhile isBlank) :
    lineIndent (a ++ (i ++ b)) (i.length + o) = lineIndent (a ++ b) o := by
  obtain ⟨k, rfl⟩ := Nat.exists_eq_add_of_le ho
  have hlen : i.length + (a.length + k) = (a ++ i).length + k := by
    rw [List.length_append]
    omega
  rw [← List.append_assoc, hlen, lineIndent_add, lineIndent_add]
  rcases exists_lastLine (b.take k) with hb | ⟨c, l, hc, hl⟩
  · rw [lastLine_append hb, lastLine_append hb, List.append_assoc, h, List.append_assoc]
  · rw [hc, ← List.append_assoc, ← List.append_assoc, lastLine_append_cons hl,
      lastLine_append_cons hl]

end FlutterScaffold.Text
