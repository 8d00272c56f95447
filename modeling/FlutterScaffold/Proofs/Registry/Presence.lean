import FlutterScaffold.Proofs.Text.Search
import FlutterScaffold.Proofs.Name.Alphabet
import FlutterScaffold.Registry.Declaration

/-!
# Presence of a declaration while text is inserted

A declaration is present when its lines are consecutive lines of the document. A block of lines
written behind some place of a line cuts that line in two and stands between the parts. When no line
that this touches is a line of the declaration, its presence does not change
(`declares_insert_block`). The lines of the three declarations of a route are told apart by their
first byte and by the semicolon that entries lack.
-/

namespace FlutterScaffold

namespace Text

open Byte (newline isMargin isBlank)

/-- A run that holds none of the elements in the middle stands before or behind them. -/
theorem infix_append_append_iff {α : Type} {w a b mid : List α} (hw : w ≠ []) (hne : mid ≠ [])
    (hmid : ∀ m ∈ mid, m ∉ w) : w <:+: a ++ (mid ++ b) ↔ w <:+: a ∨ w <:+: b := by
  induction mid generalizing a with
  | nil => exact absurd rfl hne
  | cons m mid ih =>
    obtain ⟨hm, hmid⟩ := List.forall_mem_cons.mp hmid
    rw [List.cons_append, infix_append_cons_iff hm]
    cases mid with
    | nil => rfl
    | cons n mid =>
      have h := ih (a := []) (by simp) hmid
      rw [List.nil_append, List.infix_nil] at h
      rw [h]
      simp [hw]

/-- The lines of a text into which a block of lines is written behind some place of a line. -/
theorem bareLines_insert_block {nl indent : Text} (hnl : IsLineBreak nl)
    (hindent : ∀ x ∈ indent, isBlank x) (a b last : Text) (init : List Text)
    (hinit : ∀ l ∈ init, newline ∉ l) (hlast : newline ∉ last) :
    bareLines (a ++ (block nl indent (init ++ [last]) ++ b)) =
      (bareLines a).dropLast ++ ((trim isMargin (lastLine a) :: init.map (trim isMargin) ++
        [trim isMargin (last ++ firstLine b)]) ++ (bareLines b).tail) := by
  induction init generalizing a with
  | nil =>
    rw [List.nil_append, bareLines_append_block hnl hindent, block_nil, List.nil_append,
      bareLines_append, bareLines_of_not_mem hlast, lastLine_of_not_mem hlast,
      bareLines_eq_dropLast_append a]
    simp
  | cons l init ih =>
    obtain ⟨hl, hinit⟩ := List.forall_mem_cons.mp hinit
    rw [List.cons_append, bareLines_append_block hnl hindent, ih l hinit,
      bareLines_of_not_mem hl, lastLine_of_not_mem hl, bareLines_eq_dropLast_append a]
    simp

/-- A byte that is no margin stays when a line is trimmed. -/
theorem mem_trim_of_mem {p : Byte → Bool} {b : Byte} {t : Text} (hb : b ∈ t) (hp : p b = false) :
    b ∈ trim p t := by
  have hdrop (s : Text) (hs : b ∈ s) : b ∈ s.dropWhile p := by
    have hsplit := List.takeWhile_append_dropWhile (p := p) (l := s)
    rw [← hsplit] at hs
    rcases List.mem_append.mp hs with hs | hs
    · exact absurd (List.mem_takeWhile_imp hs) (by simp [hp])
    · exact hs
  rw [trim, trimEnd, trimStart, List.mem_reverse]
  exact hdrop _ (List.mem_reverse.mpr (hdrop t hb))

/-- A line that starts with spaces and a letter is trimmed to one that starts with either. -/
theorem head?_trim_of_spaces {s t : Text} {c : Byte} (hs : ∀ b ∈ s, Byte.isSpace b)
    (hc : isMargin c = false) :
    ∃ b u, trim isMargin (s ++ c :: t) = b :: u ∧ (Byte.isSpace b ∨ b = c) := by
  have hstart : ∃ b u, trimStart isMargin (s ++ c :: t) = b :: u ∧ isMargin b = false ∧
      (Byte.isSpace b ∨ b = c) := by
    induction s with
    | nil => exact ⟨c, t, by simp [trimStart, hc], hc, Or.inr rfl⟩
    | cons b s ih =>
      obtain ⟨hb, hs⟩ := List.forall_mem_cons.mp hs
      by_cases hm : isMargin b = true
      · obtain ⟨x, u, hx, h⟩ := ih hs
        exact ⟨x, u, by simpa [trimStart, hm] using hx, h⟩
      · rw [Bool.not_eq_true] at hm
        exact ⟨b, s ++ c :: t, by simp [trimStart, hm], hm, Or.inl hb⟩
  obtain ⟨b, u, hu, hb, hor⟩ := hstart
  refine ⟨b, trimEnd isMargin u, ?_, hor⟩
  rw [trim, hu, trimEnd, trimEnd, List.reverse_cons, List.dropWhile_append]
  split
  · rename_i hall
    have hnil : u.reverse.dropWhile isMargin = [] := by simpa using hall
    simp [hnil, hb]
  · simp

end Text

namespace Registry

open Text (bareLines block lastLine firstLine trim IsLineBreak)
open Byte (newline isMargin isBlank)

/-- The lines a declaration is looked for by. -/
def wanted (declaration : List Text) : List Text := declaration.map (trim isMargin)

theorem declares_iff {doc : Text} {declaration : List Text} :
    declares doc declaration = true ↔ wanted declaration <:+: bareLines doc :=
  occursIn_iff

/-- Writing a block of lines behind some place of a line leaves the presence of a declaration alone
when no line that comes or goes is a line of the declaration. -/
theorem declares_insert_block {nl indent : Text} (hnl : IsLineBreak nl)
    (hindent : ∀ x ∈ indent, isBlank x) {a b last : Text} {declaration : List Text}
      (init : List Text)
    (hinit : ∀ l ∈ init, newline ∉ l) (hlast : newline ∉ last) (hne : declaration ≠ [])
    (hold : trim isMargin (lastLine a ++ firstLine b) ∉ wanted declaration)
    (hhead : trim isMargin (lastLine a) ∉ wanted declaration)
    (hnew : ∀ l ∈ init, trim isMargin l ∉ wanted declaration)
    (htail : trim isMargin (last ++ firstLine b) ∉ wanted declaration) :
    declares (a ++ (block nl indent (init ++ [last]) ++ b)) declaration =
      declares (a ++ b) declaration := by
  have hw : wanted declaration ≠ [] := by simpa [wanted] using hne
  rw [Bool.eq_iff_iff, declares_iff, declares_iff,
    Text.bareLines_insert_block hnl hindent a b last init hinit hlast, Text.bareLines_append,
    Text.infix_append_cons_iff hold, Text.infix_append_append_iff hw (by simp)]
  intro m hm
  rcases List.mem_append.mp hm with hm | hm
  · rcases List.mem_cons.mp hm with rfl | hm
    · exact hhead
    · obtain ⟨l, hl, rfl⟩ := List.mem_map.mp hm
      exact hnew l hl
  · rw [List.mem_singleton.mp hm]
    exact htail

/-! ## Declarations that stay -/

section Stays

variable {nl indent a b : Text} {declaration : List Text}

/-- Text put into a line that is none of a declaration leaves the declaration in the document. -/
theorem declares_insert_within {m : Text} (hm : newline ∉ m)
    (hline : trim isMargin (lastLine a ++ firstLine b) ∉ wanted declaration)
    (h : declares (a ++ b) declaration = true) :
    declares (a ++ (m ++ b)) declaration = true := by
  rw [declares_iff, Text.bareLines_append, Text.infix_append_cons_iff hline] at h
  rw [declares_iff, Text.bareLines_append_append hm]
  rcases h with h | h
  · exact h.trans (List.prefix_append _ _).isInfix
  · exact h.trans ((List.suffix_cons _ _).trans (List.suffix_append _ _)).isInfix

/-- A line that is none of a declaration may be broken. -/
theorem declares_insert_lineBreak (hnl : IsLineBreak nl) (hindent : ∀ x ∈ indent, isBlank x)
    (hline : trim isMargin (lastLine a ++ firstLine b) ∉ wanted declaration)
    (h : declares (a ++ b) declaration = true) :
    declares (a ++ (nl ++ (indent ++ b))) declaration = true := by
  rw [declares_iff, Text.bareLines_append, Text.infix_append_cons_iff hline] at h
  rw [declares_iff, Text.bareLines_insert_lineBreak hnl hindent]
  rcases h with h | h
  · exact h.trans ((List.dropLast_prefix _).trans (List.prefix_append _ _)).isInfix
  · exact h.trans ((List.tail_suffix _).trans (List.suffix_append _ _)).isInfix

end Stays

end Registry

end FlutterScaffold
