import Mathlib.Computability.Language
import FlutterScaffold.Proofs.Name.Distinct
import FlutterScaffold.Proofs.Name.Spelling
import FlutterScaffold.Proofs.Text.Table

/-!
# Snake forms

The snake form of a name spells that name again (`ofText_snake`). So the texts that are their own
snake form are the empty one and the words of small letters and digits with one underscore between
them (`snake_eq_self_iff`), and such a text is a usable name when it starts with a letter and is not
a reserved word: its identifier is reserved only together with the text
(`validate_and_snake_eq_iff`).
-/

namespace FlutterScaffold.Name

open scoped Computability
open Byte (isAlnum isDigit isLower isUpper toLower toUpper slash backslash)

/-! ## The grammar -/

/-- `[a-z0-9]` -/
def smalls : Language Byte := {t | ∃ b, t = [b] ∧ isSegmentByte b}

/-- `[a-z]` -/
def letters : Language Byte := {t | ∃ b, t = [b] ∧ isLower b}

/-- `(_[a-z0-9]+)*` -/
def laterWords : Language Byte := ({[byte '_']} * (smalls * smalls∗))∗

/-- `[a-z0-9]+(_[a-z0-9]+)*` -/
def snakeForms : Language Byte := smalls * smalls∗ * laterWords

/-- `[a-z][a-z0-9]*(_[a-z0-9]+)*` -/
def projectForms : Language Byte := letters * smalls∗ * laterWords

/-- Any number of bytes of a class. -/
theorem mem_kstar_iff_forall {p : Byte → Prop} {l : Language Byte}
    (hl : ∀ u, u ∈ l ↔ ∃ b, u = [b] ∧ p b) {t : Text} : t ∈ l∗ ↔ ∀ b ∈ t, p b := by
  rw [Language.mem_kstar]
  constructor
  · rintro ⟨pieces, rfl, hpieces⟩ b hb
    obtain ⟨piece, hpiece, hb⟩ := List.mem_flatten.mp hb
    obtain ⟨c, rfl, hc⟩ := (hl piece).mp (hpieces piece hpiece)
    rwa [List.mem_singleton.mp hb]
  · intro ht
    refine ⟨t.map ([·]), (List.flatMap_singleton' t).symm, ?_⟩
    intro piece hpiece
    obtain ⟨b, hb, rfl⟩ := List.mem_map.mp hpiece
    exact (hl [b]).mpr ⟨b, rfl, ht b hb⟩

theorem mem_kstar_smalls_iff {t : Text} : t ∈ smalls∗ ↔ ∀ b ∈ t, isSegmentByte b :=
  mem_kstar_iff_forall fun _ => Iff.rfl

/-- Words are the texts of small letters and digits that are not empty. -/
theorem mem_smalls_mul_iff {t : Text} : t ∈ smalls * smalls∗ ↔ IsWord t := by
  rw [Language.mem_mul]
  constructor
  · rintro ⟨-, ⟨b, rfl, hb⟩, rest, hrest, rfl⟩
    exact ⟨by simp, List.forall_mem_cons.mpr ⟨hb, mem_kstar_smalls_iff.mp hrest⟩⟩
  · intro ht
    obtain ⟨b, rest, rfl⟩ := List.exists_cons_of_ne_nil ht.ne_nil
    obtain ⟨hb, hrest⟩ := List.forall_mem_cons.mp ht.isSegmentByte
    exact ⟨[b], ⟨b, rfl, hb⟩, rest, mem_kstar_smalls_iff.mpr hrest, rfl⟩

theorem mem_laterWords_iff {t : Text} : t ∈ laterWords ↔
    ∃ more : List Text, (∀ s ∈ more, IsWord s) ∧ t = more.flatMap ([byte '_'] ++ ·) := by
  rw [laterWords, Language.mem_kstar]
  constructor
  · rintro ⟨pieces, rfl, hpieces⟩
    induction pieces with
    | nil => exact ⟨[], by simp, rfl⟩
    | cons piece pieces ih =>
      obtain ⟨hpiece, hlater⟩ := List.forall_mem_cons.mp hpieces
      obtain ⟨more, hmore, heq⟩ := ih hlater
      obtain ⟨-, rfl, s, hs, rfl⟩ := Language.mem_mul.mp hpiece
      refine ⟨s :: more, List.forall_mem_cons.mpr ⟨mem_smalls_mul_iff.mp hs, hmore⟩, ?_⟩
      rw [List.flatten_cons, heq, List.flatMap_cons]
  · rintro ⟨more, hmore, rfl⟩
    refine ⟨more.map ([byte '_'] ++ ·), List.flatMap_def .., ?_⟩
    intro piece hpiece
    obtain ⟨s, hs, rfl⟩ := List.mem_map.mp hpiece
    exact Language.mem_mul.mpr ⟨_, rfl, s, mem_smalls_mul_iff.mpr (hmore s hs), rfl⟩

/-- The language of snake forms holds exactly the snake forms of words. -/
theorem mem_snakeForms_iff {t : Text} : t ∈ snakeForms ↔
    ∃ first more, (∀ s ∈ first :: more, IsWord s) ∧ t = (Name.mk (first :: more)).snake := by
  rw [snakeForms, Language.mem_mul]
  constructor
  · rintro ⟨first, hfirst, tail, htail, rfl⟩
    obtain ⟨more, hmore, rfl⟩ := mem_laterWords_iff.mp htail
    refine ⟨first, more, List.forall_mem_cons.mpr ⟨mem_smalls_mul_iff.mp hfirst, hmore⟩, ?_⟩
    rw [snake, intercalate_cons]
  · rintro ⟨first, more, hwords, rfl⟩
    obtain ⟨hfirst, hmore⟩ := List.forall_mem_cons.mp hwords
    refine ⟨first, mem_smalls_mul_iff.mpr hfirst, _, mem_laterWords_iff.mpr ⟨more, hmore, rfl⟩, ?_⟩
    rw [snake, intercalate_cons]

/-- A snake form is one of a project when it starts with a letter. -/
theorem mem_projectForms_iff {t : Text} :
    t ∈ projectForms ↔ t ∈ snakeForms ∧ ∃ b rest, t = b :: rest ∧ isLower b := by
  rw [projectForms, snakeForms, Language.mem_mul, Language.mem_mul]
  constructor
  · rintro ⟨first, hfirst, tail, htail, rfl⟩
    obtain ⟨-, ⟨b, rfl, hb⟩, rest, hrest, rfl⟩ := Language.mem_mul.mp hfirst
    have hsmall : [b] ∈ smalls := ⟨b, rfl, by simp [isSegmentByte, hb]⟩
    exact ⟨⟨_, Language.mem_mul.mpr ⟨_, hsmall, rest, hrest, rfl⟩, tail, htail, rfl⟩, b, _, rfl, hb⟩
  · rintro ⟨⟨first, hfirst, tail, htail, rfl⟩, b, rest, hb, hlower⟩
    obtain ⟨-, ⟨c, rfl, -⟩, word, hword, rfl⟩ := Language.mem_mul.mp hfirst
    obtain ⟨rfl, -⟩ := List.cons.inj hb
    exact ⟨_, Language.mem_mul.mpr ⟨_, ⟨_, rfl, hlower⟩, word, hword, rfl⟩, tail, htail, rfl⟩

/-! ## Reading a snake form -/

/-- Words joined by underscores spell the name of these words. -/
theorem ofText_snake_of_isWord {words : List Text} (h : ∀ s ∈ words, IsWord s) :
    ofText (Name.mk words).snake = ⟨words⟩ := by
  cases words with
  | nil => rfl
  | cons first more =>
    have hsnd : (more.map ([byte '_'], ·)).map Prod.snd = more := by simp
    have hgaps : ∀ gap ∈ (more.map ([byte '_'], ·)).map Prod.fst, gap ≠ [] ∧ IsGap gap := by
      intro gap hmem
      obtain ⟨p, hp, rfl⟩ := List.mem_map.mp hmem
      obtain ⟨s, -, rfl⟩ := List.mem_map.mp hp
      exact ⟨by simp, List.forall_mem_singleton.mpr (by decide)⟩
    have hempty : IsGap [] := by simp [IsGap]
    have hspaced := ofText_spaced (by rwa [hsnd]) hgaps hempty hempty
    rw [hsnd, spaced, List.flatMap_map, List.append_nil, List.nil_append] at hspaced
    rwa [snake, intercalate_cons]

/-- The snake form of what a text spells spells the same. -/
theorem ofText_snake (text : Text) : ofText (ofText text).snake = ofText text :=
  ofText_snake_of_isWord fun _ hs => isWord_of_mem_segmentsOf hs

/-- A text is its own snake form exactly when it is empty or belongs to the language of snake
forms. -/
theorem snake_eq_self_iff {text : Text} :
    (ofText text).snake = text ↔ text = [] ∨ text ∈ snakeForms := by
  constructor
  · intro hself
    cases hsegments : segmentsOf text with
    | nil =>
      rw [ofText, hsegments] at hself
      exact Or.inl hself.symm
    | cons first more =>
      refine Or.inr (mem_snakeForms_iff.mpr ⟨first, more, ?_, ?_⟩)
      · rw [← hsegments]
        exact fun s hs => isWord_of_mem_segmentsOf hs
      · rw [← hsegments]
        exact hself.symm
  · rintro (rfl | hmem)
    · rfl
    · obtain ⟨first, more, hwords, rfl⟩ := mem_snakeForms_iff.mp hmem
      rw [ofText_snake_of_isWord hwords]

/-! ## Usable snake forms -/

/-- The reserved words stand in byte order, so the search among them misses none. -/
theorem isReserved_iff {word : Text} : isReserved word = true ↔ word ∈ reservedWords := by
  have hsorted : reservedWords.Pairwise (Text.precedes · ·) := by decide +kernel
  exact Text.binarySearch_iff hsorted

/-- Behind its first byte, a reserved word holds small letters only. -/
theorem isReserved_eq_false {word : Text} {b : Byte} (hb : b ∈ word.tail)
    (h : isLower b = false) : isReserved word = false := by
  have hsmall : ∀ w ∈ reservedWords, w.tail.all isLower := by decide +kernel
  refine Bool.eq_false_iff.mpr fun hreserved => ?_
  have hall := List.all_eq_true.mp (hsmall word (isReserved_iff.mp hreserved)) b hb
  rw [h] at hall
  exact absurd hall (by simp)

/-- The identifier of a name is reserved only where the snake form is the same word. -/
theorem isReserved_identifier {first : Text} {more : List Text}
    (hwords : ∀ s ∈ first :: more, IsWord s) :
    isReserved (Name.mk (first :: more)).identifier =
      isReserved (Name.mk (first :: more)).snake := by
  obtain ⟨hfirst, hmore⟩ := List.forall_mem_cons.mp hwords
  rw [identifier, snake, intercalate_cons]
  cases more with
  | nil => rfl
  | cons s more =>
    obtain ⟨a, first, rfl⟩ := List.exists_cons_of_ne_nil hfirst.ne_nil
    have hs := hmore s (List.mem_cons_self ..)
    obtain ⟨c, s, rfl⟩ := List.exists_cons_of_ne_nil hs.ne_nil
    have hcapital : ∀ c, isSegmentByte c → isLower (toUpper c) = false := by decide +kernel
    have hc := hcapital c (hs.isSegmentByte c (List.mem_cons_self ..))
    rw [isReserved_eq_false (b := toUpper c) (by simp [capitalize]) hc,
      isReserved_eq_false (b := byte '_') (by simp) (by decide)]

/-- The identifier and the snake form of a name start with its first word. -/
theorem head?_identifier {first : Text} (hfirst : IsWord first) (more : List Text) :
    (Name.mk (first :: more)).identifier.head? = (Name.mk (first :: more)).snake.head? := by
  obtain ⟨b, first, rfl⟩ := List.exists_cons_of_ne_nil hfirst.ne_nil
  rw [identifier, snake, intercalate_cons]
  rfl

/-- The usable names that are their own snake form are those of a project that are not reserved. A
snake form is read back as itself, so its words are known and no byte of it is a slash. -/
theorem validate_and_snake_eq_iff {text : Text} :
    (∃ name, validate text = .ok name ∧ name.snake = text) ↔
      text ∈ projectForms ∧ isReserved text = false := by
  rw [mem_projectForms_iff]
  constructor
  · rintro ⟨name, hvalidate, hself⟩
    obtain ⟨b, rest, hidentifier, hlower⟩ := exists_identifier_of_validate hvalidate
    obtain ⟨rfl, -, -, -, hfree⟩ := validate_eq_ok_iff.mp hvalidate
    obtain rfl | hsnake := snake_eq_self_iff.mp hself
    · have hnone : ofText [] = ⟨[]⟩ := rfl
      simp [hnone, identifier] at hidentifier
    · obtain ⟨first, more, hwords, rfl⟩ := mem_snakeForms_iff.mp hsnake
      rw [ofText_snake_of_isWord hwords] at hidentifier hfree
      have hhead := head?_identifier (hwords first (List.mem_cons_self ..)) more
      rw [hidentifier, List.head?_cons] at hhead
      obtain ⟨tail, htail⟩ := List.head?_eq_some_iff.mp hhead.symm
      exact ⟨⟨hsnake, b, tail, htail, hlower⟩, (isReserved_identifier hwords).symm.trans hfree⟩
  · rintro ⟨⟨hsnake, b, rest, htext, hlower⟩, hfree⟩
    have hself : (ofText text).snake = text := snake_eq_self_iff.mpr (Or.inr hsnake)
    have hbytes := isSnakeByte_of_mem_snake text
    rw [hself] at hbytes
    have hbare : ∀ b, isSnakeByte b → b ≠ slash ∧ b ≠ backslash := by decide +kernel
    have hletter : ∀ b, isLower b → isDigit b = false := by decide +kernel
    refine ⟨ofText text, validate_eq_ok_iff.mpr ⟨rfl, ?_, ?_, ?_, ?_⟩, hself⟩
    · exact fun hmem => (hbare slash (hbytes slash hmem)).1 rfl
    · exact fun hmem => (hbare backslash (hbytes backslash hmem)).2 rfl
    all_goals
      obtain ⟨first, more, hwords, rfl⟩ := mem_snakeForms_iff.mp hsnake
      rw [ofText_snake_of_isWord hwords]
    · have hhead := head?_identifier (hwords first (List.mem_cons_self ..)) more
      rw [htext, List.head?_cons] at hhead
      obtain ⟨tail, htail⟩ := List.head?_eq_some_iff.mp hhead
      exact ⟨b, tail, htail, hletter b hlower⟩
    · rw [isReserved_identifier hwords, hfree]

end FlutterScaffold.Name
