import FlutterScaffold.Proofs.Name.Cutting
import FlutterScaffold.Proofs.Name.Snake

/-!
# The names that are accepted

What is asked of a name is asked of different forms of it: of its bytes, and of the identifier that
is made from its segments. In the name itself this means that it has no path separator, that a
letter comes before any digit (`head?_identifier_ofText`), and that the identifier is none of the
reserved words. Nothing else is refused, and all forms of an accepted name are well formed
(`validate_accepts_usable_names`).
-/

namespace FlutterScaffold.Name

open scoped Computability
open Byte (isAlnum isDigit isLower isUpper toLower slash backslash)

/-- `[A-Za-z0-9]` -/
def alnums : Language Byte := {t | ∃ b, t = [b] ∧ isAlnum b}

/-- `[a-z][A-Za-z0-9]*` -/
def memberForms : Language Byte := letters * alnums∗

/-- An identifier starts with the first letter or digit of the name, in small. -/
theorem head?_identifier_ofText (text : Text) :
    (ofText text).identifier.head? = (text.find? isAlnum).map toLower := by
  have hbytes := (segmentsOf_eq_pieces text).2.1
  rw [← List.head?_filter, ← List.head?_map, ← hbytes, identifier, ofText]
  cases hsegments : segmentsOf text with
  | nil => rfl
  | cons first more =>
    have hne : first ≠ [] := ne_nil_of_mem_segmentsOf (hsegments ▸ List.mem_cons_self ..)
    obtain ⟨b, rest, rfl⟩ := List.exists_cons_of_ne_nil hne
    rfl

/-- The identifier starts with no digit exactly when a letter comes first in the name. -/
theorem exists_letter_iff {text : Text} :
    (∃ b rest, (ofText text).identifier = b :: rest ∧ isDigit b = false) ↔
      ∃ b, text.find? isAlnum = some b ∧ (isUpper b ∨ isLower b) := by
  have hletter : ∀ b, isAlnum b → (isDigit (toLower b) = false ↔ isUpper b ∨ isLower b) := by
    decide +kernel
  have hhead := head?_identifier_ofText text
  constructor
  · rintro ⟨c, rest, hidentifier, hdigit⟩
    rw [hidentifier, List.head?_cons] at hhead
    obtain ⟨b, hfind, rfl⟩ := Option.map_eq_some_iff.mp hhead.symm
    exact ⟨b, hfind, (hletter b (List.find?_some hfind)).mp hdigit⟩
  · rintro ⟨b, hfind, hb⟩
    rw [hfind, Option.map_some] at hhead
    obtain ⟨rest, hidentifier⟩ := List.head?_eq_some_iff.mp hhead
    exact ⟨toLower b, rest, hidentifier, (hletter b (List.find?_some hfind)).mpr hb⟩

/-- The snake form of a name with a letter in front is one of those of a project. -/
theorem snake_mem_projectForms {text : Text} {b : Byte} {rest : Text}
    (hidentifier : (ofText text).identifier = b :: rest) (hlower : isLower b) :
    (ofText text).snake ∈ projectForms := by
  have hwords : ∀ s ∈ segmentsOf text, IsWord s := fun _ hs => isWord_of_mem_segmentsOf hs
  rw [ofText] at hidentifier ⊢
  cases hsegments : segmentsOf text with
  | nil => simp [hsegments, identifier] at hidentifier
  | cons first more =>
    rw [hsegments] at hidentifier hwords
    have hhead := head?_identifier (hwords first (List.mem_cons_self ..)) more
    rw [hidentifier, List.head?_cons] at hhead
    obtain ⟨tail, hsnake⟩ := List.head?_eq_some_iff.mp hhead.symm
    exact mem_projectForms_iff.mpr
      ⟨mem_snakeForms_iff.mpr ⟨first, more, hwords, rfl⟩, b, tail, hsnake, hlower⟩

theorem identifier_mem_memberForms {text : Text} {b : Byte} {rest : Text}
    (hidentifier : (ofText text).identifier = b :: rest) (hlower : isLower b) :
    (ofText text).identifier ∈ memberForms := by
  have halnum := isAlnum_of_mem_identifier text
  rw [hidentifier] at halnum ⊢
  have hrest : rest ∈ alnums∗ :=
    (mem_kstar_iff_forall fun _ => Iff.rfl).mpr (List.forall_mem_cons.mp halnum).2
  exact Language.mem_mul.mpr ⟨[b], ⟨b, rfl, hlower⟩, rest, hrest, rfl⟩

/-- A name is accepted exactly when it has no path separator, a letter is the first of its letters
and digits, and its identifier is no reserved word, and the search for reserved words misses none.
What is accepted is the name that the text spells: its snake form and its identifier start with a
small letter and are made of the bytes that go there, its type name is the identifier with a
capital, and its path is the snake form behind a slash. -/
theorem validate_accepts_usable_names (text : Text) :
    ((∃ name, validate text = .ok name) ↔
        slash ∉ text ∧ backslash ∉ text ∧
          (∃ b, text.find? isAlnum = some b ∧ (isUpper b ∨ isLower b)) ∧
          (ofText text).identifier ∉ reservedWords) ∧
      (∀ word, isReserved word = true ↔ word ∈ reservedWords) ∧
      ∀ name, validate text = .ok name →
        name = ofText text ∧ name.snake ∈ projectForms ∧ name.identifier ∈ memberForms ∧
          name.typeName = capitalize name.identifier ∧ name.path = slash :: name.snake := by
  refine ⟨?_, fun _ => isReserved_iff, ?_⟩
  · rw [← exists_letter_iff, ← isReserved_iff, Bool.not_eq_true]
    constructor
    · rintro ⟨name, hname⟩
      obtain ⟨rfl, hslash, hbackslash, hletter, hfree⟩ := validate_eq_ok_iff.mp hname
      exact ⟨hslash, hbackslash, hletter, hfree⟩
    · exact fun h => ⟨ofText text, validate_eq_ok_iff.mpr ⟨rfl, h⟩⟩
  · intro name hname
    obtain ⟨b, rest, hidentifier, hlower⟩ := exists_identifier_of_validate hname
    obtain rfl := eq_ofText_of_validate hname
    refine ⟨rfl, snake_mem_projectForms hidentifier hlower,
      identifier_mem_memberForms hidentifier hlower, ?_, rfl⟩
    exact typeName_eq_capitalize_identifier fun s hs => ne_nil_of_mem_segmentsOf hs

/-- A byte outside ASCII separates, and a word may start with a digit where a letter came before. -/
theorem validate_accepts_usable_names_outside_ascii :
    let text := lit "éHTTPServer-2go"
    let name : Name := ⟨[lit "http", lit "server", lit "2go"]⟩
    validate text = .ok name ∧ name.snake = lit "http_server_2go" ∧ name.snake ∈ projectForms ∧
      name.identifier = lit "httpServer2go" ∧ name.identifier ∈ memberForms ∧
      name.typeName = lit "HttpServer2go" := by
  intro text name
  have hname : validate text = .ok name := by decide
  obtain ⟨-, hsnake, hidentifier, -, -⟩ := (validate_accepts_usable_names text).2.2 name hname
  exact ⟨hname, by decide, hsnake, by decide, hidentifier, by decide⟩

end FlutterScaffold.Name
