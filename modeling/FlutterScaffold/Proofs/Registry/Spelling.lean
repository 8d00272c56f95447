import FlutterScaffold.Proofs.Text.Lines
import FlutterScaffold.Proofs.Name.Alphabet
import FlutterScaffold.Project.Manifest
import FlutterScaffold.Registry.Declaration

/-!
# The bytes of a declaration

Imports of plain paths and constants are written with few kinds of bytes: no bracket, no line break
and, but for the two quotes of each literal, no quote. Entries have brackets but no semicolon. An
`AnchorSpec` that a manifest can make has an identifier for its class and a token of one line that
ends with a bracket.
-/

namespace FlutterScaffold

open Byte (newline quote isAlnum isLower isIdentifier)

/-- Bytes of a plain path of a Dart file. -/
def Route.isPlainByte (b : Byte) : Bool :=
  isAlnum b || b == byte '_' || b == byte '-' || b == byte '.' || b == Byte.slash

/-- A regular route that imports a file of a plain, non-empty path. -/
structure Route.Plain (route : Route) : Prop extends route.Regular where
  importPath_ne_nil : route.importPath ≠ []
  importPath_plain : ∀ b ∈ route.importPath, Route.isPlainByte b

namespace Registry

/-- What a manifest makes sure of: the class is an identifier, and the token ends with the bracket
that opens the list and does not go over its line. -/
structure AnchorSpec.Accepted (spec : AnchorSpec) : Prop where
  routerClass : Project.isIdentifier spec.routerClass
  listToken : spec.listToken.getLast? = some (byte '[')
  newline_not_mem : newline ∉ spec.listToken

/-- A spelling whose token cannot overlap the end of a statement. -/
structure AnchorSpec.Plain (spec : AnchorSpec) : Prop extends spec.Accepted where
  semicolon_not_mem : byte ';' ∉ spec.listToken

/-- Bytes that imports and constants are written with. -/
def isStatementByte (b : Byte) : Bool :=
  isAlnum b || b == byte ' ' || b == quote || b == byte ';' || b == byte '=' || b == byte '_' ||
    b == byte '-' || b == byte '.' || b == Byte.slash

/-- Bytes that entries are written with. -/
def isEntryByte (b : Byte) : Bool :=
  isIdentifier b || b == byte ' ' || b == byte '(' || b == byte ')' || b == byte ',' ||
    b == byte ':' || b == byte '.' || b == byte '=' || b == byte '>'

/-- A value without bytes that need a backslash is written as it is. -/
theorem escape_eq_self {value : Text} (h : ∀ b ∈ value, Dart.needsEscape b = false) :
    Dart.escape value = value := by
  induction value with
  | nil => rfl
  | cons b value ih =>
    obtain ⟨hb, hvalue⟩ := List.forall_mem_cons.mp h
    have hrest := ih hvalue
    rw [Dart.escape] at hrest
    rw [Dart.escape, List.flatMap_cons, hrest]
    simp [hb]

/-- Plain bytes need no backslash. -/
theorem needsEscape_of_isPlainByte : ∀ b, Route.isPlainByte b → Dart.needsEscape b = false := by
  decide +kernel

/-- Statements are written with plain bytes, among others. -/
theorem isStatementByte_of_isPlainByte (b : Byte) (h : Route.isPlainByte b) :
    isStatementByte b := by
  simp only [Route.isPlainByte, Bool.or_eq_true, beq_iff_eq] at h
  rcases h with (((halnum | rfl) | rfl) | rfl) | rfl
  · simp [isStatementByte, halnum]
  all_goals rfl

theorem isPlainByte_of_isAlnum (b : Byte) (h : isAlnum b) : Route.isPlainByte b := by
  simp [Route.isPlainByte, h]

theorem isPlainByte_of_isSnakeByte (b : Byte) (h : Name.isSnakeByte b) : Route.isPlainByte b := by
  simp only [Name.isSnakeByte, Bool.or_eq_true, beq_iff_eq] at h
  rcases h with hsegment | rfl
  · exact isPlainByte_of_isAlnum b (Name.isAlnum_of_isSegmentByte b hsegment)
  · rfl

theorem isEntryByte_of_isAlnum (b : Byte) (h : isAlnum b) : isEntryByte b := by
  simp [isEntryByte, Byte.isIdentifier_of_isAlnum b h]

/-- Entries are written with the bytes of identifiers, among others. -/
theorem isEntryByte_of_isIdentifier : ∀ b, isIdentifier b → isEntryByte b := by
  intro b hb
  simp [isEntryByte, hb]

/-- A literal of plain bytes is the value between two quotes. -/
theorem stringLiteral_of_plain {value : Text} (h : ∀ b ∈ value, Route.isPlainByte b) :
    Dart.stringLiteral value = quote :: (value ++ [quote]) := by
  rw [Dart.stringLiteral, escape_eq_self fun b hb => needsEscape_of_isPlainByte b (h b hb)]
  rfl

private theorem isStatementByte_of_mem_stringLiteral {value : Text}
    (h : ∀ b ∈ value, Route.isPlainByte b) : ∀ b ∈ Dart.stringLiteral value, isStatementByte b := by
  rw [stringLiteral_of_plain h]
  intro b hb
  rcases List.mem_cons.mp hb with rfl | hb
  · decide
  · rcases List.mem_append.mp hb with hb | hb
    · exact isStatementByte_of_isPlainByte b (h b hb)
    · rw [List.mem_singleton.mp hb]
      decide

/-- Constants are written with the bytes of statements. -/
theorem isStatementByte_of_mem_constantLine {name value : Text} (hn : ∀ b ∈ name, isAlnum b)
    (hv : ∀ b ∈ value, Route.isPlainByte b) : ∀ b ∈ constantLine name value, isStatementByte b := by
  have hstart : ∀ b ∈ lit "static const String ", isStatementByte b := List.all_eq_true.mp rfl
  have heq : ∀ b ∈ lit " = ", isStatementByte b := List.all_eq_true.mp rfl
  have hend : ∀ b ∈ lit ";", isStatementByte b := List.all_eq_true.mp rfl
  have hname : ∀ b ∈ name, isStatementByte b := fun b hb =>
    isStatementByte_of_isPlainByte b (isPlainByte_of_isAlnum b (hn b hb))
  have hvalue := isStatementByte_of_mem_stringLiteral hv
  simp only [constantLine, List.forall_mem_append]
  exact ⟨⟨⟨⟨hstart, hname⟩, heq⟩, hvalue⟩, hend⟩

/-- Constants are written with statement bytes. -/
theorem isStatementByte_of_mem_constantLines {route : Route} (h : route.Regular) :
    ∀ l ∈ constantLines route, ∀ b ∈ l, isStatementByte b := by
  have hname : ∀ b ∈ route.name, Route.isPlainByte b := fun b hb =>
    isPlainByte_of_isSnakeByte b (h.name_snake b hb)
  have hpath : ∀ b ∈ route.path, Route.isPlainByte b := by
    rw [h.path_eq]
    exact List.forall_mem_cons.mpr ⟨by decide, hname⟩
  have hsymbol : ∀ b ∈ route.symbol ++ lit "Name", isAlnum b :=
    List.forall_mem_append.mpr ⟨h.symbol_alnum, List.all_eq_true.mp rfl⟩
  simp only [constantLines, List.forall_mem_cons]
  exact ⟨isStatementByte_of_mem_constantLine h.symbol_alnum hpath,
    isStatementByte_of_mem_constantLine hsymbol hname, by simp⟩

/-- Imports of plain paths are written with statement bytes. -/
theorem isStatementByte_of_mem_importLines {route : Route}
    (h : ∀ b ∈ route.importPath, Route.isPlainByte b) :
    ∀ l ∈ importLines route, ∀ b ∈ l, isStatementByte b := by
  have hstart : ∀ b ∈ lit "import ", isStatementByte b := List.all_eq_true.mp rfl
  have hend : ∀ b ∈ lit ";", isStatementByte b := List.all_eq_true.mp rfl
  simp only [importLines, List.forall_mem_singleton, List.forall_mem_append]
  exact ⟨⟨hstart, isStatementByte_of_mem_stringLiteral h⟩, hend⟩

theorem isIdentifier_of_mem {w : Text} (h : Project.isIdentifier w) : ∀ b ∈ w, isIdentifier b := by
  cases w with
  | nil => simp
  | cons c rest =>
    rw [Project.isIdentifier, Bool.and_eq_true, List.all_eq_true] at h
    exact List.forall_mem_cons.mpr ⟨by simp [isIdentifier, h.1], h.2⟩

/-- The class of an accepted spelling is an identifier. -/
theorem isIdentifier_of_mem_routerClass {spec : AnchorSpec} (h : spec.Accepted) :
    ∀ b ∈ spec.routerClass, isIdentifier b := isIdentifier_of_mem h.routerClass

/-- Entries are written with entry bytes. -/
theorem isEntryByte_of_mem_entryLines {spec : AnchorSpec} {route : Route} (hs : spec.Accepted)
    (h : route.Regular) : ∀ l ∈ entryLines spec route, ∀ b ∈ l, isEntryByte b := by
  have hclass : ∀ b ∈ spec.routerClass, isEntryByte b := fun b hb =>
    isEntryByte_of_isIdentifier b (isIdentifier_of_mem_routerClass hs b hb)
  have hsymbol : ∀ b ∈ route.symbol, isEntryByte b := fun b hb =>
    isEntryByte_of_isAlnum b (h.symbol_alnum b hb)
  have hwidget : ∀ b ∈ route.widget, isEntryByte b := fun b hb =>
    isEntryByte_of_isAlnum b (h.widget_alnum b hb)
  have hlits : ∀ t ∈ [lit "GoRoute(", lit "  path: ", lit ".", lit ",", lit "  name: ",
      lit "Name,", lit "  builder: (context, state) => const ", lit "(),", lit "),"],
      ∀ b ∈ t, isEntryByte b := by
    simp only [List.forall_mem_cons]
    exact ⟨List.all_eq_true.mp rfl, List.all_eq_true.mp rfl, List.all_eq_true.mp rfl,
      List.all_eq_true.mp rfl, List.all_eq_true.mp rfl, List.all_eq_true.mp rfl,
      List.all_eq_true.mp rfl, List.all_eq_true.mp rfl, List.all_eq_true.mp rfl, by simp⟩
  simp only [List.forall_mem_cons] at hlits
  obtain ⟨h₁, h₂, h₃, h₄, h₅, h₆, h₇, h₈, h₉, -⟩ := hlits
  simp only [entryLines, List.forall_mem_cons, List.forall_mem_append]
  exact ⟨h₁, ⟨⟨⟨⟨h₂, hclass⟩, h₃⟩, hsymbol⟩, h₄⟩, ⟨⟨⟨⟨h₅, hclass⟩, h₃⟩, hsymbol⟩, h₆⟩,
    ⟨⟨h₇, hwidget⟩, h₈⟩, h₉, by simp⟩

end Registry

end FlutterScaffold
