import FlutterScaffold.Proofs.Registry.Presence
import FlutterScaffold.Proofs.Registry.Shape
import FlutterScaffold.Proofs.Registry.Spelling

/-!
# Declarations do not hide one another

The merges of a route look for its three declarations in a document into which the earlier ones may
have been written. The line of an import starts with a space or an `i` and never with the `s` of a
constant, and lines of imports and constants have the semicolon that no line of an entry has. So
writing an import makes no constant or entry appear or vanish, and writing constants none of the
entries, for whatever route these are.
-/

namespace FlutterScaffold

open FlutterScaffold.Text (trim lastLine firstLine block IsLineBreak)
open Byte (newline isMargin isBlank)

theorem Text.mem_of_mem_trim {p : Byte → Bool} {t : Text} {b : Byte} (h : b ∈ trim p t) :
    b ∈ t := by
  rw [trim, Text.trimEnd, Text.trimStart, List.mem_reverse] at h
  have h := (List.dropWhile_sublist p).subset h
  exact (List.dropWhile_sublist p).subset (List.mem_reverse.mp h)

namespace Registry

/-! ## Lines of declarations -/

/-- An import is one line that starts with `i` and holds a semicolon. -/
theorem exists_importLine (route : Route) : ∃ t, importLines route = [byte 'i' :: t] ∧
    byte ';' ∈ byte 'i' :: t := by
  refine ⟨lit "mport " ++ Dart.stringLiteral route.importPath ++ lit ";", rfl, ?_⟩
  rw [← List.cons_append]
  exact List.mem_append_right _ (by decide)

/-- The line of an import ends with a semicolon. -/
theorem exists_append_importLine (route : Route) : ∃ t, importLines route = [t ++ [byte ';']] :=
  ⟨lit "import " ++ Dart.stringLiteral route.importPath, rfl⟩

/-- A constant starts with `s` and ends with a semicolon. -/
theorem constantLine_eq (name value : Text) : ∃ t, constantLine name value =
    byte 's' :: (t ++ [byte ';']) :=
  ⟨lit "tatic const String " ++ name ++ lit " = " ++ Dart.stringLiteral value, rfl⟩

/-- Both lines of the constants start with `s`. -/
theorem exists_cons_of_mem_constantLines {route : Route} {l : Text} (h : l ∈ constantLines route) :
    ∃ t, l = byte 's' :: t := by
  rcases List.mem_cons.mp h with rfl | h
  · exact ⟨_, rfl⟩
  · exact ⟨_, List.mem_singleton.mp h⟩

theorem semicolon_mem_constantLine (name value : Text) : byte ';' ∈ constantLine name value := by
  obtain ⟨t, ht⟩ := constantLine_eq name value
  rw [ht]
  simp

/-- Constants are looked for by lines that start with their first word. -/
theorem head?_of_mem_wanted_constantLines {route : Route} {l : Text}
    (h : l ∈ wanted (constantLines route)) : l.head? = some (byte 's') := by
  have hline (name value : Text) :
      (trim isMargin (constantLine name value)).head? = some (byte 's') := by
    obtain ⟨t, ht⟩ := constantLine_eq name value
    have hlast : (constantLine name value).getLast? = some (byte ';') := by
      rw [ht, ← List.cons_append, List.getLast?_concat]
    rw [Text.trim_eq_self ht hlast (by decide) (by decide), ht]
    rfl
  simp only [wanted, constantLines, List.map_cons, List.map_nil, List.mem_cons] at h
  rcases h with rfl | rfl | h
  · exact hline _ _
  · exact hline _ _
  · simp at h

/-- Entries are looked for by lines without a semicolon. -/
theorem semicolon_not_mem_of_mem_wanted_entryLines {spec : AnchorSpec} {route : Route} {l : Text}
    (hs : spec.Accepted) (hr : route.Regular) (h : l ∈ wanted (entryLines spec route)) :
    byte ';' ∉ l := by
  obtain ⟨line, hline, rfl⟩ := List.mem_map.mp h
  intro hmem
  exact absurd (isEntryByte_of_mem_entryLines hs hr line hline _ (Text.mem_of_mem_trim hmem))
    (by decide)

/-- A byte of an escaped value is a backslash or a byte of the value. -/
theorem mem_of_mem_escape {value : Text} {b : Byte} (h : b ∈ Dart.escape value) :
    b = Byte.backslash ∨ b ∈ value := by
  obtain ⟨c, hc, hb⟩ := List.mem_flatMap.mp h
  split at hb
  · rcases List.mem_cons.mp hb with rfl | hb
    · exact Or.inl rfl
    · exact Or.inr (List.mem_singleton.mp hb ▸ hc)
  · exact Or.inr (List.mem_singleton.mp hb ▸ hc)

/-- An import is written on one line where its path is. -/
theorem newline_not_mem_importLines {route : Route} (h : newline ∉ route.importPath) :
    ∀ l ∈ importLines route, newline ∉ l := by
  have hpath : newline ∉ Dart.escape route.importPath := by
    intro hmem
    rcases mem_of_mem_escape hmem with hb | hb
    · exact absurd hb (by decide)
    · exact h hb
  have hstart : newline ∉ lit "import " ++ [Byte.quote] := by decide
  have hend : newline ∉ [Byte.quote] ++ lit ";" := by decide
  have hline := List.not_mem_append (List.not_mem_append hstart hpath) hend
  simpa [importLines, Dart.stringLiteral] using hline

/-- A constant of a regular route is written on one line. -/
theorem newline_not_mem_constantLines {route : Route} (hr : route.Regular) :
    ∀ l ∈ constantLines route, newline ∉ l := fun l hl hmem =>
  absurd (isStatementByte_of_mem_constantLines hr l hl _ hmem) (by decide)

/-- Constants are lines of their own with a semicolon. -/
theorem constantLines_statement {route : Route} (hr : route.Regular) :
    ∀ l ∈ constantLines route, newline ∉ l ∧ byte ';' ∈ l := by
  intro l hl
  refine ⟨newline_not_mem_constantLines hr l hl, ?_⟩
  rcases List.mem_cons.mp hl with rfl | hl
  · exact semicolon_mem_constantLine _ _
  · rw [List.mem_singleton.mp hl]
    exact semicolon_mem_constantLine _ _

/-! ## Lines of anchors -/

/-- The line of an import starts with a space or the first byte of the keyword. -/
theorem head?_trim_of_isImport {m : Text} (h : IsImport m) (r : Text) :
    ∃ b u, trim isMargin (m ++ r) = b :: u ∧ (Byte.isSpace b ∨ b = byte 'i') := by
  obtain ⟨s₁, s₂, path, more, rfl, hs₁, -⟩ := h
  rw [List.append_assoc]
  exact Text.head?_trim_of_spaces hs₁ (by decide)

/-- An import statement ends with a semicolon. -/
theorem exists_append_of_isImport {m : Text} (h : IsImport m) : ∃ m', m = m' ++ [byte ';'] := by
  obtain ⟨s₁, s₂, path, more, rfl, -⟩ := h
  exact ⟨s₁ ++ (lit "import" ++ (s₂ ++ Byte.quote :: (path ++ Byte.quote :: more))), by simp⟩

/-- A name constant ends with a semicolon. -/
theorem exists_append_of_isNameConstant {m : Text} (h : IsNameConstant m) :
    ∃ m', m = m' ++ [byte ';'] := by
  obtain ⟨s₁, s₂, s₃, s₄, s₅, s₆, word, value, rfl, -⟩ := h
  refine ⟨lit "static" ++ (s₁ ++ (lit "const" ++ (s₂ ++ (lit "String" ++ (s₃ ++ (word ++ (s₄ ++
    (lit "=" ++ (s₅ ++ Byte.quote :: (value ++ Byte.quote :: s₆)))))))))), ?_⟩
  simp

/-- The text up to the last import ends with the line of that import. -/
theorem exists_of_importEnd? {doc : Text} {e : Nat} (h : importEnd? doc = some e) :
    ∃ a m b, doc = a ++ m ++ b ∧ e = (a ++ m).length ∧ lastLine (a ++ m) = m ∧ IsImport m := by
  obtain ⟨a, m, b, rfl, ha, hnl, hm, rfl, -⟩ := importEnd?_eq_some_iff.mp h
  refine ⟨a, m, b, (List.append_assoc _ _ _).symm, rfl, ?_, hm⟩
  rw [Text.lastLine_append hnl, ha, List.nil_append]

/-- The class cuts a document in three, and its name constants are those of the middle part. -/
theorem exists_of_containerBraces? {spec : AnchorSpec} {doc : Text} {opener closer : Nat}
    (h : spec.containerBraces? doc = some (opener, closer)) :
    ∃ u body v, doc = u ++ (body ++ v) ∧ opener + 1 = u.length ∧ closer = (u ++ body).length ∧
      spec.constantEnd? doc = (nameConstantEnd? body).map (u.length + ·) := by
  have hbounds : opener < closer ∧ closer < doc.length := by
    simp only [AnchorSpec.containerBraces?, Option.bind_eq_bind, Option.bind_eq_some_iff] at h
    obtain ⟨o, -, k, hk, heq⟩ := h
    simp only [Option.pure_def, Option.some.injEq, Prod.mk.injEq] at heq
    obtain ⟨rfl, rfl⟩ := heq
    exact Dart.matchingBracket_bounds hk
  have hu : (doc.take (opener + 1)).length = opener + 1 := by
    rw [List.length_take]
    omega
  refine ⟨doc.take (opener + 1), (doc.drop (opener + 1)).take (closer - (opener + 1)),
    (doc.drop (opener + 1)).drop (closer - (opener + 1)), ?_, hu.symm, ?_, ?_⟩
  · rw [List.take_append_drop, List.take_append_drop]
  · rw [List.length_append, hu, List.length_take, List.length_drop]
    omega
  · simp only [AnchorSpec.constantEnd?, h, hu, Option.bind_eq_bind, Option.bind_some,
      Option.pure_def]
    exact Option.map_eq_bind.symm

/-- The text up to the last name constant of the class ends with that constant. -/
theorem exists_of_constantEnd? {spec : AnchorSpec} {doc : Text} {c : Nat}
    (h : spec.constantEnd? doc = some c) :
    ∃ a m b, doc = a ++ m ++ b ∧ c = (a ++ m).length ∧ newline ∉ m ∧ IsNameConstant m := by
  obtain ⟨⟨opener, closer⟩, hbraces, -⟩ := Option.bind_eq_some_iff.mp h
  obtain ⟨u, body, v, rfl, -, -, hend⟩ := exists_of_containerBraces? hbraces
  rw [h] at hend
  obtain ⟨e, he, rfl⟩ := Option.map_eq_some_iff.mp hend.symm
  obtain ⟨a, m, r, rfl, hnewline, hm, rfl, -⟩ := exists_of_nameConstantEnd? he
  refine ⟨u ++ a, m, r ++ v, ?_, ?_, hnewline, hm⟩
  · simp only [List.append_assoc]
  · simp only [List.length_append]
    omega

/-! ## Presence of the other declarations -/

section Insert

variable {nl indent : Text} (hnl : IsLineBreak nl) (hindent : ∀ x ∈ indent, isBlank x)

include hnl hindent

/-- An import written below the last one makes no pair of constants appear or vanish. -/
theorem declares_constantLines_insert {m : Text} {route other : Route} (a b : Text)
    (hroute : newline ∉ route.importPath) (hlast : lastLine (a ++ m) = m) (hm : IsImport m) :
    declares (a ++ m ++ (block nl indent (importLines route) ++ b)) (constantLines other) =
      declares (a ++ m ++ b) (constantLines other) := by
  have hnot {l : Text} (hl : ∃ x u, l = x :: u ∧ (Byte.isSpace x ∨ x = byte 'i')) :
      l ∉ wanted (constantLines other) := by
    intro hmem
    obtain ⟨x, u, rfl, hx⟩ := hl
    obtain rfl : x = byte 's' := Option.some.inj (head?_of_mem_wanted_constantLines hmem)
    exact absurd hx (by decide)
  obtain ⟨t, ht, -⟩ := exists_importLine route
  have hline := newline_not_mem_importLines hroute
  rw [ht] at hline ⊢
  rw [List.forall_mem_singleton] at hline
  refine declares_insert_block hnl hindent [] (by simp) hline
    (by simp [constantLines]) ?_ ?_ (by simp) ?_
  · rw [hlast]
    exact hnot (head?_trim_of_isImport hm _)
  · rw [hlast, ← List.append_nil m]
    exact hnot (head?_trim_of_isImport hm _)
  · exact hnot (Text.head?_trim_of_spaces (s := []) (by simp) (by decide))

/-- Statements written behind a semicolon make no entry appear or vanish. -/
theorem declares_entryLines_insert {a b last : Text} (init : List Text) {spec : AnchorSpec}
    {other : Route} (hs : spec.Accepted) (hother : other.Regular)
    (hinit : ∀ l ∈ init, newline ∉ l ∧ byte ';' ∈ l) (hlast : newline ∉ last ∧ byte ';' ∈ last)
    (ha : byte ';' ∈ lastLine a) :
    declares (a ++ (block nl indent (init ++ [last]) ++ b)) (entryLines spec other) =
      declares (a ++ b) (entryLines spec other) := by
  have hnot {l : Text} (hl : byte ';' ∈ l) : trim isMargin l ∉ wanted (entryLines spec other) :=
    fun hmem => semicolon_not_mem_of_mem_wanted_entryLines hs hother hmem
      (Text.mem_trim_of_mem hl (by decide))
  exact declares_insert_block hnl hindent init (fun l hl => (hinit l hl).1) hlast.1
    (by simp [entryLines]) (hnot (List.mem_append_left _ ha)) (hnot ha)
    (fun l hl => hnot (hinit l hl).2) (hnot (List.mem_append_left _ hlast.2))

end Insert

end Registry

end FlutterScaffold
