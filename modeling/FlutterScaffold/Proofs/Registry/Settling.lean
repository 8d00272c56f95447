import FlutterScaffold.Proofs.Registry.Elements
import FlutterScaffold.Proofs.Registry.LastMatch

/-!
# Settling a list

With its first entry a list gets the comma that its last element lacks, and its closer a line of its
own. Both happen once: in the settled list an entry is a block of lines between two lines. The comma
may spoil the line that it falls into, but it makes no import of a line, it never falls into the
line of an entry, and the other lines stay as they are.
-/

namespace FlutterScaffold.Registry

open FlutterScaffold.Text (bareLines block firstLine lastLine IsLineBreak trim)
open Byte (newline isBlank isLayout isMargin quote)

/-! ## Lines of declarations beside a list -/

/-- A declaration whose lines are neither blank nor hold the bracket that closes a list. -/
def Apart (declaration : List Text) : Prop := ∀ l ∈ wanted declaration, l ≠ [] ∧ byte ']' ∉ l

/-- Lines that hold a byte that is no margin, and no closing bracket, make a declaration that stands
apart. -/
theorem apart_of_mem {declaration : List Text}
    (h : ∀ l ∈ declaration, (∃ b ∈ l, isMargin b = false) ∧ byte ']' ∉ l) : Apart declaration := by
  intro l hl
  obtain ⟨line, hline, rfl⟩ := List.mem_map.mp hl
  obtain ⟨⟨b, hb, hmargin⟩, hnot⟩ := h line hline
  exact ⟨List.ne_nil_of_mem (Text.mem_trim_of_mem hb hmargin),
    fun hmem => hnot (Text.mem_of_mem_trim hmem)⟩

theorem apart_importLines {route : Route} (hpath : ∀ b ∈ route.importPath, Route.isPlainByte b) :
    Apart (importLines route) := by
  refine apart_of_mem fun l hl => ⟨⟨byte ';', ?_, by decide⟩, fun hmem => ?_⟩
  · obtain ⟨t, ht, hsemi⟩ := exists_importLine route
    rw [ht, List.mem_singleton] at hl
    exact hl ▸ hsemi
  · exact absurd (isStatementByte_of_mem_importLines hpath l hl _ hmem) (by decide)

theorem apart_constantLines {route : Route} (hr : route.Regular) : Apart (constantLines route) :=
  apart_of_mem fun l hl => ⟨⟨byte ';', (constantLines_statement hr l hl).2, by decide⟩, fun hmem =>
    absurd (isStatementByte_of_mem_constantLines hr l hl _ hmem) (by decide)⟩

/-- The lines of an entry end with a comma or an opening parenthesis. -/
theorem getLast?_of_mem_entryLines {spec : AnchorSpec} {route : Route} {l : Text}
    (h : l ∈ entryLines spec route) :
    l.getLast? = some (byte ',') ∨ l.getLast? = some (byte '(') := by
  have happend (v w : Text) (b : Byte) (hw : w.getLast? = some b) : (v ++ w).getLast? = some b := by
    rw [List.getLast?_append, hw]
    rfl
  simp only [entryLines, List.mem_cons, List.not_mem_nil, or_false] at h
  rcases h with rfl | rfl | rfl | rfl | rfl
  · exact Or.inr rfl
  · exact Or.inl (happend _ _ _ rfl)
  · exact Or.inl (happend _ _ _ rfl)
  · exact Or.inl (happend _ _ _ rfl)
  · exact Or.inl rfl

theorem apart_entryLines {spec : AnchorSpec} {route : Route} (hs : spec.Accepted)
    (hr : route.Regular) : Apart (entryLines spec route) := by
  refine apart_of_mem fun l hl => ⟨?_, fun hmem => ?_⟩
  · rcases getLast?_of_mem_entryLines hl with hlast | hlast
    · exact ⟨_, List.mem_of_getLast? hlast, by decide⟩
    · exact ⟨_, List.mem_of_getLast? hlast, by decide⟩
  · exact absurd (isEntryByte_of_mem_entryLines hs hr l hl _ hmem) (by decide)

namespace EntrySite

variable {doc : Text} {start closer : Nat} (site : EntrySite doc start closer)

/-- The document with the comma of the last element and a line for the closer. -/
def settled : Text :=
  site.code ++ (site.comma ++ (site.content ++ (site.closing ++ (site.layout ++ site.rest))))

/-- The line that the code of the list ends on. -/
def codeLine : Text :=
  lastLine site.code ++ firstLine (site.content ++ (site.layout ++ site.rest))

/-! ## The place of the comma -/

/-- What stands around the place of a comma that a list lacks: a byte of code in front of it that
ends neither an element nor the line that opens an entry, and behind it blanks up to a comment or
the end of the content. -/
structure CommaPlace : Prop where
  comma_eq : site.comma = [byte ',']
  code_spec : ∃ b, site.code.getLast? = some b ∧ isLayout b = false ∧ b ≠ byte ',' ∧ b ≠ byte '('
  content_spec : ∃ spaces v, site.content = spaces ++ v ∧ (∀ b ∈ spaces, Byte.isSpace b = true) ∧
    (v = [] ∨ ∃ d more, v ++ (site.layout ++ site.rest) = Byte.slash :: d :: more ∧
      (d = Byte.slash ∨ d = byte '*'))

/-- A list has its comma, or it lacks one at such a place. -/
theorem comma_cases {opener : Nat} (hstart : start = opener + 1)
    (h : Dart.matchingBracket doc opener = some closer) :
    (site.comma = [] ∧ site.content = []) ∨ site.CommaPlace := by
  subst hstart
  obtain ⟨hcomma, hnil, -⟩ | ⟨hcomma, last, hlast, hne, hlength⟩ := site.comma_spec
  · exact Or.inl ⟨hcomma, hnil⟩
  obtain ⟨before, b, c, a, hopener, -, hcode, -, hcontents⟩ := site.exists_contents h
  rw [hcomma] at hcontents
  obtain ⟨hparen, hcontent⟩ := hcontents.comma_spec
  obtain ⟨hlt, x, hx, hlayout⟩ := Dart.lastCode?_lt_of_matchingBracket h hlast
  have hle := (Dart.lastCode?_bounds hlast).1
  have hx' : site.code.getLast? = some x := by
    rw [List.getLast?_eq_getElem?, hlength, Nat.add_sub_cancel, ← hx]
    conv_rhs => rw [site.eq_append]
    rw [List.getElem?_append_left (by omega)]
  refine Or.inr ⟨hcomma, ⟨x, hx', hlayout, fun h => hne (h ▸ hx), fun hx₀ => hparen ?_⟩, hcontent⟩
  have hne : a ≠ [] := by
    rintro rfl
    simp only [hcode, List.length_append, List.length_cons, List.length_nil] at hlength
    omega
  rw [hcode, List.getLast?_append_of_ne_nil _ (by simp), List.getLast?_cons_of_ne_nil hne] at hx'
  rw [hx', hx₀]

/-- The bracket that closes the list stands behind the layout. -/
def Closed : Prop := site.rest.head? = some (byte ']')

variable {site}

/-- The first line of the rest holds the bracket, unless a line break stands in front of it. -/
theorem bracket_mem_firstLine (hclosed : site.Closed) (h : newline ∉ site.layout) :
    byte ']' ∈ firstLine (site.layout ++ site.rest) := by
  have hrest := List.eq_cons_of_mem_head? hclosed
  rw [Text.firstLine_append h, hrest, firstLine, List.takeWhile_cons, if_pos (by decide)]
  simp

/-- Where only bytes of entries and a margin follow the place of a comma on its line, that is a
margin alone: neither a slash nor the bracket is written in an entry. A byte that is no margin
stands behind the spaces: in the layout, the bracket or a comment. -/
theorem CommaPlace.isMargin_of_isEntryByte (h : site.CommaPlace) (hclosed : site.Closed)
    (hentry : ∀ x ∈ firstLine (site.content ++ (site.layout ++ site.rest)),
      isMargin x = false → isEntryByte x = true) :
    ∀ x ∈ firstLine (site.content ++ (site.layout ++ site.rest)), isMargin x = true := by
  obtain ⟨spaces, v, hcontent, hspaces, hv⟩ := h.content_spec
  rw [hcontent, List.append_assoc] at hentry ⊢
  have hspace : ∀ x, Byte.isSpace x → isEntryByte x → isMargin x := by decide +kernel
  intro x hx
  by_contra hnot
  rw [Bool.not_eq_true] at hnot
  have hbare : x ∉ spaces := fun hmem => by
    simp [hspace x (hspaces x hmem) (hentry x hx hnot)] at hnot
  by_cases hnewline : newline ∈ spaces
  · rw [Text.firstLine_append_of_mem hnewline] at hx
    exact hbare ((List.takeWhile_prefix _).subset hx)
  rw [Text.firstLine_append hnewline] at hentry hx
  have hx := (List.mem_append.mp hx).resolve_left hbare
  rcases hv with rfl | ⟨d, more, hv, -⟩
  · rw [List.nil_append] at hx hentry
    by_cases hnewline : newline ∈ site.layout
    · rw [Text.firstLine_append_of_mem hnewline] at hx
      have hin := site.isLayout_of_mem x ((List.takeWhile_prefix _).subset hx)
      have hne : x ≠ newline := fun h => Text.newline_not_mem_firstLine _ (h ▸ hx)
      rw [Byte.isMargin_of_isLayout x hin hne] at hnot
      exact absurd hnot (by decide)
    · exact absurd (hentry _ (List.mem_append_right _ (bracket_mem_firstLine hclosed hnewline))
        (by decide)) (by decide)
  · have hslash : Byte.slash ∈ firstLine (v ++ (site.layout ++ site.rest)) := by
      rw [hv, firstLine, List.takeWhile_cons, if_pos (by decide)]
      exact List.mem_cons_self ..
    exact absurd (hentry _ (List.mem_append_right _ hslash) (by decide)) (by decide)

/-- With a margin behind the place of a comma, its line ends with the byte of code in front of
it. -/
theorem CommaPlace.getLast?_codeLine (h : site.CommaPlace)
    (hmargin : ∀ x ∈ firstLine (site.content ++ (site.layout ++ site.rest)), isMargin x = true) :
    ∃ b, (trim isMargin site.codeLine).getLast? = some b ∧ b ≠ byte ',' ∧ b ≠ byte '(' := by
  obtain ⟨b, hb, hlayout, hcomma, hparen⟩ := h.code_spec
  have hlast : (lastLine site.code).getLast? = some b := by
    obtain ⟨init, hinit⟩ := List.getLast?_eq_some_iff.mp hb
    have hne : newline ∉ [b] := by
      rw [List.mem_singleton]
      rintro rfl
      exact absurd hlayout (by decide)
    rw [hinit, Text.lastLine_append hne, List.getLast?_concat]
  have hbare : isMargin b = false := by
    cases hm : isMargin b with
    | false => rfl
    | true => simp [isLayout, hm] at hlayout
  rw [codeLine, Text.trim_append_right hmargin]
  exact ⟨b, Text.getLast?_trim hlast hbare, hcomma, hparen⟩

/-- A comma never falls into a line of an entry. -/
theorem CommaPlace.codeLine_not_mem {spec : AnchorSpec} {route : Route} (h : site.CommaPlace)
    (hclosed : site.Closed) (hs : spec.Accepted) (hr : route.Regular) :
    trim isMargin site.codeLine ∉ wanted (entryLines spec route) := by
  intro hmem
  obtain ⟨line, hline, heq⟩ := List.mem_map.mp hmem
  have hentry : ∀ x ∈ firstLine (site.content ++ (site.layout ++ site.rest)),
      isMargin x = false → isEntryByte x = true := by
    intro x hx hmargin
    have hin := Text.mem_trim_of_mem (List.mem_append_right (lastLine site.code) hx) hmargin
    rw [← codeLine, ← heq] at hin
    exact isEntryByte_of_mem_entryLines hs hr line hline x (Text.mem_of_mem_trim hin)
  obtain ⟨b, hend, hcomma, hparen⟩ :=
    h.getLast?_codeLine (h.isMargin_of_isEntryByte hclosed hentry)
  rw [← heq] at hend
  rcases getLast?_of_mem_entryLines hline with hline | hline
  · rw [Text.getLast?_trim hline (by decide)] at hend
    exact hcomma (Option.some.inj hend).symm
  · rw [Text.getLast?_trim hline (by decide)] at hend
    exact hparen (Option.some.inj hend).symm

/-! ## Declarations in the settled list -/

section Declares

variable {spec : AnchorSpec} {route : Route} {declaration : List Text}

/-- Settling a list keeps a declaration, unless the comma falls into one of its lines. -/
theorem declares_settled (hclosed : site.Closed) (hapart : Apart declaration)
    (hcases : (site.comma = [] ∧ site.content = []) ∨ site.CommaPlace)
    (hline : site.CommaPlace → trim isMargin site.codeLine ∉ wanted declaration)
    (h : declares doc declaration = true) : declares site.settled declaration = true := by
  have hcomma : declares (site.code ++ (site.comma ++ (site.content ++ (site.layout ++ site.rest))))
      declaration = true := by
    have hdoc : declares (site.code ++ (site.content ++ (site.layout ++ site.rest)))
        declaration = true := site.eq_append ▸ h
    rcases hcases with ⟨hnil, -⟩ | hplace
    · rwa [hnil]
    · rw [hplace.comma_eq]
      exact declares_insert_within (by decide) (hline hplace) hdoc
  rw [settled, closing]
  split
  · exact hcomma
  · rename_i hnot
    have hbare : trim isMargin (lastLine (site.code ++ (site.comma ++ site.content)) ++
        firstLine (site.layout ++ site.rest)) ∉ wanted declaration := fun hmem =>
      (hapart _ hmem).2 (Text.mem_trim_of_mem
        (List.mem_append_right _ (bracket_mem_firstLine hclosed hnot)) (by decide))
    have hbreak := declares_insert_lineBreak (Text.isLineBreak_lineBreak doc)
      (fun x (hx : x ∈ Text.lineIndent doc closer) => Text.isBlank_of_mem_lineIndent hx) hbare
      (by simpa only [List.append_assoc] using hcomma)
    simpa only [List.append_assoc] using hbreak

/-- The line behind an entry is blank or holds the bracket. A line of layout in front of the rest is
blank. -/
theorem head?_lines_closing (hclosed : site.Closed) :
    ∀ l ∈ (bareLines (site.closing ++ (site.layout ++ site.rest))).tail.head?,
      l = [] ∨ byte ']' ∈ l := by
  have hfirst {layout : Text} (hlayout : ∀ x ∈ layout, isLayout x = true) :
      ∀ l ∈ (bareLines (layout ++ site.rest)).head?, l = [] ∨ byte ']' ∈ l := by
    rw [Text.bareLines_eq_cons_tail, List.head?_cons]
    intro l hl
    obtain rfl := Option.mem_some_iff.mp hl
    by_cases hnewline : newline ∈ layout
    · refine Or.inl (Text.trim_eq_nil fun x hx => ?_)
      rw [Text.firstLine_append_of_mem hnewline] at hx
      exact Byte.isMargin_of_isLayout x (hlayout x ((List.takeWhile_prefix _).subset hx))
        fun h => Text.newline_not_mem_firstLine _ (h ▸ hx)
    · have hrest := List.eq_cons_of_mem_head? hclosed
      refine Or.inr (Text.mem_trim_of_mem ?_ (by decide))
      rw [Text.firstLine_append hnewline, hrest, firstLine, List.takeWhile_cons, if_pos (by decide)]
      simp
  rw [closing]
  split
  · rename_i hnewline
    obtain ⟨x, y, hcut, hx⟩ := List.eq_append_cons_of_mem hnewline
    have hlayout := site.isLayout_of_mem
    rw [hcut] at hlayout ⊢
    rw [List.nil_append, List.append_assoc, List.cons_append, Text.bareLines_append_cons,
      Text.bareLines_of_not_mem hx, List.singleton_append, List.tail_cons]
    exact hfirst fun z hz => hlayout z (List.mem_append_right _ (List.mem_cons_of_mem _ hz))
  · have hlines := Text.bareLines_insert_lineBreak (Text.isLineBreak_lineBreak doc)
      (fun x (hx : x ∈ Text.lineIndent doc closer) => Text.isBlank_of_mem_lineIndent hx) []
      (site.layout ++ site.rest)
    rw [List.append_assoc]
    rw [List.nil_append] at hlines
    rw [hlines]
    exact hfirst site.isLayout_of_mem

end Declares

end EntrySite

end FlutterScaffold.Registry
