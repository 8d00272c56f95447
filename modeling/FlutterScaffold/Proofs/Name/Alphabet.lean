import FlutterScaffold.Proofs.Text.Bytes
import FlutterScaffold.Name.Validation
import FlutterScaffold.Registry.Route

/-!
# The bytes of a name

Segments hold small letters and digits only, so the spellings of a name are made of letters, digits
and underscores, and the identifier of a usable name starts with a small letter. A route of a
feature is therefore `Regular`: none of its texts can end a line, a literal or a comment.
-/

namespace FlutterScaffold

open Byte (isAlnum isLower isUpper isDigit toLower toUpper isIdentifier slash backslash)

namespace Name

/-- The bytes of a segment. -/
def isSegmentByte (b : Byte) : Bool := isLower b || isDigit b

theorem isSegmentByte_toLower : ∀ b, isAlnum b → isSegmentByte (toLower b) := by decide +kernel

theorem isAlnum_of_isSegmentByte (b : Byte) (h : isSegmentByte b) : isAlnum b := by
  simp only [isSegmentByte, Bool.or_eq_true] at h
  rcases h with hlower | hdigit
  · simp [isAlnum, hlower]
  · simp [isAlnum, hdigit]

theorem isAlnum_toUpper : ∀ b, isSegmentByte b → isAlnum (toUpper b) := by decide +kernel

/-- A segment that is closed is written with small letters and digits. -/
private theorem isSegmentByte_of_mem_closeSegment {current s : Text}
    (hc : ∀ b ∈ current, isAlnum b) (hs : s ∈ closeSegment current) : ∀ b ∈ s, isSegmentByte b := by
  unfold closeSegment at hs
  split at hs
  · simp at hs
  · rw [List.mem_singleton] at hs
    subst hs
    intro b hb
    obtain ⟨c, hcm, rfl⟩ := List.mem_map.mp hb
    exact isSegmentByte_toLower c (hc c (List.mem_reverse.mp hcm))

/-- What the reader finds is written with small letters and digits. -/
theorem isSegmentByte_of_mem_segmentsFrom {current text s : Text}
    (hc : ∀ b ∈ current, isAlnum b) (hs : s ∈ segmentsFrom current text) :
    ∀ b ∈ s, isSegmentByte b := by
  induction text generalizing current with
  | nil => exact isSegmentByte_of_mem_closeSegment hc hs
  | cons b rest ih =>
    simp only [segmentsFrom] at hs
    split at hs
    · rcases List.mem_append.mp hs with hs | hs
      · exact isSegmentByte_of_mem_closeSegment hc hs
      · exact ih (by simp) hs
    · rename_i hb
      have hb' : isAlnum b := by simpa using hb
      split at hs
      · rcases List.mem_append.mp hs with hs | hs
        · exact isSegmentByte_of_mem_closeSegment hc hs
        · exact ih (by simpa using hb') hs
      · exact ih (by simpa using ⟨hb', hc⟩) hs

/-- A segment holds small letters and digits only. -/
theorem isSegmentByte_of_mem_segmentsOf {text s : Text} (hs : s ∈ segmentsOf text) :
    ∀ b ∈ s, isSegmentByte b :=
  isSegmentByte_of_mem_segmentsFrom (by simp) hs

/-- Bytes of the snake form. -/
def isSnakeByte (b : Byte) : Bool := isSegmentByte b || b == byte '_'

/-- A capitalized segment is written with letters and digits. -/
theorem isAlnum_of_mem_capitalize {s : Text} (hs : ∀ b ∈ s, isSegmentByte b) :
    ∀ b ∈ capitalize s, isAlnum b := by
  cases s with
  | nil => simp [capitalize]
  | cons c s =>
    obtain ⟨hc, hs⟩ := List.forall_mem_cons.mp hs
    exact List.forall_mem_cons.mpr
      ⟨isAlnum_toUpper c hc, fun b hb => isAlnum_of_isSegmentByte b (hs b hb)⟩

/-- The type name of a text is written with letters and digits. -/
theorem isAlnum_of_mem_typeName (text : Text) : ∀ b ∈ (ofText text).typeName, isAlnum b := by
  intro b hb
  obtain ⟨s, hs, hb⟩ := List.mem_flatMap.mp hb
  exact isAlnum_of_mem_capitalize (isSegmentByte_of_mem_segmentsOf hs) b hb

/-- The identifier of a text is written with letters and digits. -/
theorem isAlnum_of_mem_identifier (text : Text) : ∀ b ∈ (ofText text).identifier, isAlnum b := by
  intro b hb
  simp only [identifier, ofText] at hb
  split at hb
  · simp at hb
  · rename_i first more hseg
    have hall : ∀ s ∈ first :: more, ∀ b ∈ s, isSegmentByte b := by
      rw [← hseg]
      exact fun s hs => isSegmentByte_of_mem_segmentsOf hs
    rcases List.mem_append.mp hb with hb | hb
    · exact isAlnum_of_isSegmentByte b (hall first (by simp) b hb)
    · obtain ⟨s, hs, hb⟩ := List.mem_flatMap.mp hb
      exact isAlnum_of_mem_capitalize (hall s (by simp [hs])) b hb

private theorem mem_of_mem_intersperse {sep : Text} :
    ∀ {l : List Text} {s : Text}, s ∈ l.intersperse sep → s ∈ l ∨ s = sep
  | [], _, h => by simp at h
  | [_], _, h => Or.inl h
  | a :: b :: l, s, h => by
    rw [List.intersperse_cons_cons, List.mem_cons, List.mem_cons] at h
    rcases h with rfl | rfl | h
    · exact Or.inl (by simp)
    · exact Or.inr rfl
    · exact (mem_of_mem_intersperse h).imp_left (List.mem_cons_of_mem a)

/-- The snake form of a text is written with small letters, digits and underscores. -/
theorem isSnakeByte_of_mem_snake (text : Text) : ∀ b ∈ (ofText text).snake, isSnakeByte b := by
  intro b hb
  rw [snake, List.intercalate] at hb
  obtain ⟨s, hs, hb⟩ := List.mem_flatten.mp hb
  rcases mem_of_mem_intersperse hs with hs | rfl
  · simp [isSnakeByte, isSegmentByte_of_mem_segmentsOf hs b hb]
  · simp [isSnakeByte, List.mem_singleton.mp hb]

/-- A text is a usable name when it holds no path separator and its identifier starts with a letter
and is not reserved. -/
theorem validate_eq_ok_iff {text : Text} {name : Name} : validate text = .ok name ↔
    name = ofText text ∧ slash ∉ text ∧ backslash ∉ text ∧
      (∃ b rest, name.identifier = b :: rest ∧ isDigit b = false) ∧
      isReserved name.identifier = false := by
  constructor
  · intro h
    obtain rfl := eq_ofText_of_validate h
    simp only [validate] at h
    split at h
    · simp at h
    · rename_i hseparator
      obtain ⟨hslash, hbackslash⟩ : slash ∉ text ∧ backslash ∉ text := by simpa using hseparator
      split at h
      · simp at h
      · rename_i b rest hidentifier
        split at h
        · simp at h
        · rename_i hdigit
          split at h
          · simp at h
          · rename_i hfree
            exact ⟨rfl, hslash, hbackslash, ⟨b, rest, hidentifier, by simpa using hdigit⟩,
              by simpa using hfree⟩
  · rintro ⟨rfl, hslash, hbackslash, ⟨b, rest, hidentifier, hdigit⟩, hfree⟩
    rw [hidentifier] at hfree
    simp [validate, hslash, hbackslash, hidentifier, hdigit, hfree]

/-- The first byte of an identifier can only be a small letter or a digit. -/
theorem isSegmentByte_of_identifier {text : Text} {b : Byte} {rest : Text}
    (h : (ofText text).identifier = b :: rest) : isSegmentByte b := by
  simp only [identifier, ofText] at h
  split at h
  · simp at h
  · rename_i first more hfirst
    have hmem : first ∈ segmentsOf text := by rw [hfirst]; simp
    cases first with
    | nil => exact absurd rfl (ne_nil_of_mem_segmentsOf hmem)
    | cons c first =>
      obtain ⟨rfl, -⟩ := List.cons.inj h
      exact isSegmentByte_of_mem_segmentsOf hmem c (by simp)

/-- The identifier of a usable name starts with a small letter. -/
theorem exists_identifier_of_validate {text : Text} {name : Name} (h : validate text = .ok name) :
    ∃ b rest, name.identifier = b :: rest ∧ isLower b := by
  obtain ⟨rfl, -, -, ⟨b, rest, hidentifier, hdigit⟩, -⟩ := validate_eq_ok_iff.mp h
  have hseg := isSegmentByte_of_identifier hidentifier
  exact ⟨b, rest, hidentifier, by simpa [isSegmentByte, hdigit] using hseg⟩

end Name

/-- What every route to a feature has: an identifier, a snake name behind a slash, and a class. -/
structure Route.Regular (route : Route) : Prop where
  symbol_start : ∃ b rest, route.symbol = b :: rest ∧ isLower b
  symbol_alnum : ∀ b ∈ route.symbol, isAlnum b
  path_eq : route.path = Byte.slash :: route.name
  name_snake : ∀ b ∈ route.name, Name.isSnakeByte b
  widget_alnum : ∀ b ∈ route.widget, isAlnum b

/-- The route of a usable name is regular, whatever file it imports. -/
theorem Route.regular_ofFeature {text : Text} {name : Name} (h : Name.validate text = .ok name)
    (importPath : Text) : (Route.ofFeature name importPath).Regular := by
  have hstart := Name.exists_identifier_of_validate h
  obtain rfl := Name.eq_ofText_of_validate h
  refine ⟨hstart, Name.isAlnum_of_mem_identifier text, rfl, Name.isSnakeByte_of_mem_snake text, ?_⟩
  intro b hb
  rcases List.mem_append.mp hb with hb | hb
  · exact Name.isAlnum_of_mem_typeName text b hb
  · exact (List.all_eq_true.mp rfl : ∀ b ∈ lit "Page", isAlnum b) b hb

end FlutterScaffold
