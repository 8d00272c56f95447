import FlutterScaffold.Proofs.Text.Search
import FlutterScaffold.Project.Pubspec

/-!
# Where package dependencies are written

The section for dependencies is looked for byte by byte, at the start of a pubspec and behind each
newline. Told by lines, its place is the first line with a newline that has the key, blanks and at
most one carriage return (`sectionEnd?_eq_findIdx?`). So the dependency lines go right behind this
line, nothing else of the text changes, and they are not added a second time
(`withDependencies?_by_lines`).
-/

namespace FlutterScaffold.Project.Pubspec

open Byte (newline carriageReturn isBlank)
open Text (after? after?_eq_some_iff hasInfix_iff lines lines_of_not_mem lines_append_cons)

/-- Where line `i` of a text starts, counted from 0. -/
def lineStart (t : Text) (i : Nat) : Nat := (((lines t).take i).map (·.length + 1)).sum

/-- Whether a line, without its newline, opens the section: the key, then blanks, then at most one
carriage return. -/
def opensSection (line : Text) : Bool :=
  match after? (lit "dependencies:") line with
  | none => false
  | some rest =>
    let rest := rest.dropWhile isBlank
    rest.isEmpty || rest = [carriageReturn]

section Section

variable {t l rest more blanks : Text}

theorem dropWhile_isBlank_append (h : ∀ b ∈ blanks, isBlank b)
    (hrest : ∀ b ∈ rest.head?, isBlank b = false) : (blanks ++ rest).dropWhile isBlank = rest := by
  rw [List.dropWhile_append_of_pos h]
  cases rest with
  | nil => rfl
  | cons b rest => rw [List.dropWhile_cons, hrest b rfl]; rfl

/-- A line opens the section exactly when nothing but blanks stands behind the word, up to a
carriage return at most. -/
theorem opensSection_iff : opensSection l = true ↔ ∃ blanks tail : Text,
    (∀ b ∈ blanks, isBlank b) ∧ (tail = [] ∨ tail = [carriageReturn]) ∧
      l = lit "dependencies:" ++ (blanks ++ tail) := by
  constructor
  · intro h
    rw [opensSection] at h
    split at h
    · simp at h
    · rename_i rest hrest
      obtain rfl := after?_eq_some_iff.mp hrest
      refine ⟨rest.takeWhile isBlank, rest.dropWhile isBlank, ?_, by simpa using h, ?_⟩
      · exact fun b hb => List.mem_takeWhile_imp hb
      · rw [List.takeWhile_append_dropWhile]
  · rintro ⟨blanks, tail, hblanks, htail, rfl⟩
    have hkey := after?_eq_some_iff.mpr (rfl : lit "dependencies:" ++ (blanks ++ tail) = _)
    have hhead : ∀ b ∈ tail.head?, isBlank b = false := by
      rcases htail with rfl | rfl <;> rintro b ⟨⟩
      rfl
    rw [opensSection, hkey]
    dsimp only
    rw [dropWhile_isBlank_append hblanks hhead]
    rcases htail with rfl | rfl <;> rfl

/-- The line that opens the section is one line. -/
theorem newline_not_mem_of_opensSection (h : opensSection l) : newline ∉ l := by
  obtain ⟨blanks, tail, hblanks, htail, rfl⟩ := opensSection_iff.mp h
  have hkey : newline ∉ lit "dependencies:" := by decide
  refine List.not_mem_append hkey (List.not_mem_append (fun hmem => ?_) ?_)
  · exact absurd (hblanks newline hmem) (by decide)
  · rcases htail with rfl | rfl <;> decide

/-- The search by bytes recognizes the line together with its newline. The line ends in one byte or
in two, and the first of two belongs to the line. -/
theorem afterSection?_eq_some_iff :
    afterSection? t = some more ↔ ∃ line, opensSection line ∧ t = line ++ newline :: more := by
  constructor
  · intro h
    obtain ⟨rest, hrest, hbreak⟩ := Option.bind_eq_some_iff.mp h
    dsimp only at hbreak
    obtain rfl := after?_eq_some_iff.mp hrest
    obtain ⟨blanks, tail, hblanks, hdrop, rfl⟩ : ∃ blanks tail, (∀ b ∈ blanks, isBlank b) ∧
        rest.dropWhile isBlank = tail ∧ rest = blanks ++ tail :=
      ⟨_, _, fun b hb => List.mem_takeWhile_imp hb, rfl, List.takeWhile_append_dropWhile.symm⟩
    rw [hdrop] at hbreak
    cases hreturn : after? [carriageReturn] tail with
    | none =>
      rw [hreturn, Option.getD_none, after?_eq_some_iff] at hbreak
      refine ⟨lit "dependencies:" ++ (blanks ++ []),
        opensSection_iff.mpr ⟨blanks, [], hblanks, Or.inl rfl, rfl⟩, ?_⟩
      simp [hbreak]
    | some broken =>
      rw [hreturn, Option.getD_some, after?_eq_some_iff] at hbreak
      refine ⟨lit "dependencies:" ++ (blanks ++ [carriageReturn]),
        opensSection_iff.mpr ⟨blanks, _, hblanks, Or.inr rfl, rfl⟩, ?_⟩
      simp [after?_eq_some_iff.mp hreturn, hbreak]
  · rintro ⟨line, hopens, rfl⟩
    obtain ⟨blanks, tail, hblanks, htail, rfl⟩ := opensSection_iff.mp hopens
    have hhead : ∀ b ∈ (tail ++ newline :: more).head?, isBlank b = false := by
      rcases htail with rfl | rfl <;> rintro b ⟨⟩ <;> rfl
    rw [List.append_assoc, List.append_assoc, afterSection?, after?_eq_some_iff.mpr rfl]
    change after? _ ((after? _ (List.dropWhile _ _)).getD (List.dropWhile _ _)) = _
    rw [dropWhile_isBlank_append hblanks hhead]
    rcases htail with rfl | rfl <;> rfl

/-- What opens the section at the start of a text is its first line. -/
theorem afterSection?_append_cons (hl : newline ∉ l) (rest : Text) :
    afterSection? (l ++ newline :: rest) = if opensSection l then some rest else none := by
  split
  · rename_i hopens
    exact afterSection?_eq_some_iff.mpr ⟨l, hopens, rfl⟩
  · rename_i hopens
    refine Option.eq_none_iff_forall_ne_some.mpr fun more hmore => ?_
    obtain ⟨line, hline, h⟩ := afterSection?_eq_some_iff.mp hmore
    have hlines := congrArg lines h
    rw [lines_append_cons hl, lines_append_cons (newline_not_mem_of_opensSection hline)] at hlines
    obtain ⟨rfl, -⟩ := List.cons.inj hlines
    exact hopens hline

/-- A text without a newline is no line that opens the section. -/
theorem afterSection?_of_not_mem (hl : newline ∉ l) : afterSection? l = none := by
  refine Option.eq_none_iff_forall_ne_some.mpr fun more hmore => ?_
  obtain ⟨line, -, rfl⟩ := afterSection?_eq_some_iff.mp hmore
  exact hl (List.mem_append_right _ (List.mem_cons_self ..))

theorem nextSectionEnd?_of_not_mem (hl : newline ∉ l) : nextSectionEnd? l = none := by
  induction l with
  | nil => rfl
  | cons b l ih =>
    obtain ⟨hb, hl⟩ := not_or.mp (List.mem_cons.not.mp hl)
    rw [nextSectionEnd?, if_neg (Ne.symm hb), ih hl]
    rfl

/-- Behind a newline the search starts again. -/
theorem nextSectionEnd?_append_cons (hl : newline ∉ l) (rest : Text) :
    nextSectionEnd? (l ++ newline :: rest) = (sectionEnd? rest).map (· + (l.length + 1)) := by
  induction l with
  | nil =>
    rw [List.nil_append, nextSectionEnd?, if_pos rfl, sectionEnd?]
    cases afterSection? rest <;> rfl
  | cons b l ih =>
    obtain ⟨hb, hl⟩ := not_or.mp (List.mem_cons.not.mp hl)
    rw [List.cons_append, nextSectionEnd?, if_neg (Ne.symm hb), ih hl]
    cases sectionEnd? rest <;> rfl

/-- A last line opens no section. -/
theorem sectionEnd?_of_not_mem (hl : newline ∉ l) : sectionEnd? l = none := by
  rw [sectionEnd?, afterSection?_of_not_mem hl, nextSectionEnd?_of_not_mem hl]

/-- The search takes one line after the other. -/
theorem sectionEnd?_append_cons (hl : newline ∉ l) (rest : Text) :
    sectionEnd? (l ++ newline :: rest) =
      if opensSection l then some (l.length + 1)
      else (sectionEnd? rest).map (· + (l.length + 1)) := by
  rw [sectionEnd?, afterSection?_append_cons hl]
  cases opensSection l with
  | true =>
    have hlength : (l ++ newline :: rest).length - rest.length = l.length + 1 := by
      rw [List.length_append, List.length_cons]
      omega
    exact congrArg some hlength
  | false => exact nextSectionEnd?_append_cons hl rest

/-- The section starts behind the first line with a newline that opens it. -/
theorem sectionEnd?_eq_findIdx? (t : Text) :
    sectionEnd? t =
      ((lines t).dropLast.findIdx? opensSection).map fun i => lineStart t (i + 1) := by
  induction t using Text.induction_on_lines with
  | last l hl => rw [sectionEnd?_of_not_mem hl, lines_of_not_mem hl]; rfl
  | line l rest hl ih =>
    have hne : lines rest ≠ [] := Text.cut_ne_nil _ _
    have hstart (i : Nat) : lineStart (l ++ newline :: rest) (i + 1) =
        lineStart rest i + (l.length + 1) := by
      rw [lineStart, lines_append_cons hl, List.take_succ_cons, List.map_cons, List.sum_cons,
        Nat.add_comm]
      rfl
    rw [sectionEnd?_append_cons hl, lines_append_cons hl, List.dropLast_cons_of_ne_nil hne,
      List.findIdx?_cons]
    split
    · rw [Option.map_some, hstart]
      simp [lineStart]
    · rw [ih, Option.map_map, Option.map_map]
      exact congrArg (Option.map · _) (funext fun i => (hstart (i + 1)).symm)

end Section

/-! ## The insertion -/

/-- A text that mentions the package is left as it is. -/
theorem withDependencies?_of_landmark {t : Text} (h : landmark <:+: t) :
    withDependencies? t = some t := by
  rw [withDependencies?, if_pos (hasInfix_iff.mpr h)]

/-- Any other text gets the block behind the line that opens its section, if it has one. -/
theorem withDependencies?_of_not_landmark {t : Text} (h : ¬ landmark <:+: t) :
    withDependencies? t = (sectionEnd? t).map fun n =>
      t.take n ++ dependencies.drop 1 ++ t.drop n := by
  rw [withDependencies?, if_neg (by rwa [hasInfix_iff])]

/-- A pubspec that names the landmark stays as it is. In any other the dependency lines go right
behind the first line with a newline that opens the section, and nothing else is changed; there is
no result when there is no such line. Adding them to a result again changes nothing. -/
theorem withDependencies?_by_lines (t : Text) :
    withDependencies? t =
        (if landmark <:+: t then some t
        else ((lines t).dropLast.findIdx? opensSection).map fun i =>
          t.take (lineStart t (i + 1)) ++ dependencies.drop 1 ++ t.drop (lineStart t (i + 1))) ∧
      (withDependencies? t).bind withDependencies? = withDependencies? t := by
  constructor
  · split
    · rename_i h
      exact withDependencies?_of_landmark h
    · rename_i h
      rw [withDependencies?_of_not_landmark h, sectionEnd?_eq_findIdx?, Option.map_map]
      rfl
  · by_cases h : landmark <:+: t
    · rw [withDependencies?_of_landmark h, Option.bind_some, withDependencies?_of_landmark h]
    · have hown : landmark <:+: dependencies.drop 1 := by decide
      rw [withDependencies?_of_not_landmark h]
      cases sectionEnd? t with
      | none => rfl
      | some n =>
        exact withDependencies?_of_landmark (hown.trans (List.infix_append _ _ _))

/-- A key that is indented or longer opens no section, the last line has no newline, and blanks and
a carriage return may follow the key. -/
example :
    let t := lit "  dependencies:\ndev_dependencies:\ndependencies: \t\r\nx:\ndependencies:"
    (lines t).map opensSection = [false, false, true, false, true] := by
  rw [lit_ofList]
  decide

end FlutterScaffold.Project.Pubspec
