import FlutterScaffold.Proofs.Name.Alphabet

/-!
# When two names share an identifier

A snake form marks the start of a word by an underscore and an identifier marks it by a capital. A
word that starts with a digit has no capital, so there the identifier loses the mark. All else of
the snake form can be read back off the identifier (`spread_identifier`): two names share their
identifier exactly when their snake forms agree without the underscores in front of digits
(`identifier_eq_iff_closeDigits`).
-/

namespace FlutterScaffold.Name

open Byte (isAlnum isDigit isLower isUpper toLower toUpper)

/-- A snake form without the underscores in front of digits. -/
def closeDigits : Text → Text
  | [] => []
  | b :: rest =>
    if b == byte '_' && rest.head?.any isDigit then closeDigits rest else b :: closeDigits rest

/-- An identifier with each capital written small behind an underscore. -/
def spread (t : Text) : Text :=
  t.flatMap fun b => if isUpper b then [byte '_', toLower b] else [b]

/-! ## Reading an identifier back -/

theorem spread_of_segment {s : Text} (h : ∀ b ∈ s, isSegmentByte b) : spread s = s := by
  have hsmall : ∀ b, isSegmentByte b → isUpper b = false := by decide +kernel
  induction s with
  | nil => rfl
  | cons b s ih =>
    obtain ⟨hb, hs⟩ := List.forall_mem_cons.mp h
    have hrest := ih hs
    rw [spread] at hrest
    rw [spread, List.flatMap_cons, hrest, hsmall b hb]
    rfl

theorem closeDigits_append_segment {s : Text} (h : ∀ b ∈ s, isSegmentByte b) (t : Text) :
    closeDigits (s ++ t) = s ++ closeDigits t := by
  have hbare : ∀ b, isSegmentByte b → (b == byte '_') = false := by decide +kernel
  induction s with
  | nil => rfl
  | cons b s ih =>
    obtain ⟨hb, hs⟩ := List.forall_mem_cons.mp h
    rw [List.cons_append, closeDigits, hbare b hb, ih hs]
    rfl

/-- A capitalized word reads back as the word behind an underscore, unless a digit starts it. -/
theorem spread_capitalize {s : Text} (h : ∀ b ∈ s, isSegmentByte b) (hne : s ≠ []) (t : Text) :
    spread (capitalize s) ++ closeDigits t = closeDigits (byte '_' :: (s ++ t)) := by
  obtain ⟨b, s, rfl⟩ := List.exists_cons_of_ne_nil hne
  obtain ⟨hb, hs⟩ := List.forall_mem_cons.mp h
  have htail := closeDigits_append_segment h t
  have hrest := spread_of_segment hs
  rw [spread] at hrest
  rw [List.cons_append] at htail ⊢
  rw [closeDigits, capitalize, spread, List.flatMap_cons, hrest, htail]
  by_cases hd : isDigit b
  · have hkept : ∀ b, isDigit b → isUpper b = false ∧ toUpper b = b := by decide +kernel
    obtain ⟨hsmall, hsame⟩ := hkept b hd
    simp [hd, hsame, hsmall]
  · have hletter : ∀ b, isSegmentByte b → isDigit b = false →
        isUpper (toUpper b) = true ∧ toLower (toUpper b) = b := by decide +kernel
    obtain ⟨hcapital, hsmall⟩ := hletter b hb (by simpa using hd)
    simp [hd, hcapital, hsmall]

/-- Words joined by a separator are the first word and each other word behind the separator. -/
theorem intercalate_cons (sep first : Text) (more : List Text) :
    List.intercalate sep (first :: more) = first ++ more.flatMap (sep ++ ·) := by
  induction more generalizing first with
  | nil => simp [List.intercalate]
  | cons s more ih =>
    rw [List.flatMap_cons, List.append_assoc, ← ih s]
    simp [List.intercalate]

/-- An identifier holds the snake form but for the underscores in front of digits. -/
theorem spread_identifier {name : Name}
    (h : ∀ s ∈ name.segments, s ≠ [] ∧ ∀ b ∈ s, isSegmentByte b) :
    spread name.identifier = closeDigits name.snake := by
  obtain ⟨segments⟩ := name
  cases segments with
  | nil => rfl
  | cons first more =>
    obtain ⟨hfirst, hmore⟩ := List.forall_mem_cons.mp h
    have hwords : spread (more.flatMap capitalize) =
      closeDigits (more.flatMap ([byte '_'] ++ ·)) := by
      clear h
      induction more with
      | nil => rfl
      | cons s more ih =>
        obtain ⟨hs, hmore⟩ := List.forall_mem_cons.mp hmore
        rw [List.flatMap_cons, List.flatMap_cons, spread, List.flatMap_append, ← spread, ← spread,
          ih hmore, spread_capitalize hs.2 hs.1]
        rfl
    rw [identifier, snake, intercalate_cons, closeDigits_append_segment hfirst.2, ← hwords, spread,
      List.flatMap_append, ← spread, ← spread, spread_of_segment hfirst.2]

/-- No two texts of letters and digits read back the same. A capital is spelled with an underscore
in front, which is no letter and no digit. -/
theorem spread_inj {t t' : Text} (h : ∀ b ∈ t, isAlnum b) (h' : ∀ b ∈ t', isAlnum b)
    (heq : spread t = spread t') : t = t' := by
  have hbare : ∀ b, isAlnum b → b ≠ byte '_' := by decide +kernel
  have hsmall : ∀ b c, isUpper b → isUpper c → toLower b = toLower c → b = c := by
    intro b c hb hc hbc
    have hback : ∀ b, isUpper b → toUpper (toLower b) = b := by decide +kernel
    rw [← hback b hb, hbc, hback c hc]
  induction t generalizing t' with
  | nil =>
    cases t' with
    | nil => rfl
    | cons c t' =>
      rw [spread, spread, List.flatMap_cons] at heq
      split at heq <;> simp at heq
  | cons b t ih =>
    cases t' with
    | nil =>
      rw [spread, spread, List.flatMap_cons] at heq
      split at heq <;> simp at heq
    | cons c t' =>
      obtain ⟨hb, ht⟩ := List.forall_mem_cons.mp h
      obtain ⟨hc, ht'⟩ := List.forall_mem_cons.mp h'
      rw [spread, spread, List.flatMap_cons, List.flatMap_cons, ← spread, ← spread] at heq
      by_cases hub : isUpper b <;> by_cases huc : isUpper c <;> simp [hub, huc] at heq
      · rw [hsmall b c hub huc heq.1, ih ht ht' heq.2]
      · exact absurd heq.1.symm (hbare c hc)
      · exact absurd heq.1 (hbare b hb)
      · rw [heq.1, ih ht ht' heq.2]

/-! ## Names that share their spellings -/

section Validated

variable {text text' : Text} {name name' : Name}

theorem identifier_eq_iff_closeDigits (h : validate text = .ok name)
    (h' : validate text' = .ok name') :
    name.identifier = name'.identifier ↔ closeDigits name.snake = closeDigits name'.snake := by
  obtain rfl := eq_ofText_of_validate h
  obtain rfl := eq_ofText_of_validate h'
  have hspread (text : Text) :
      spread (ofText text).identifier = closeDigits (ofText text).snake :=
    spread_identifier fun s hs => ⟨ne_nil_of_mem_segmentsOf hs, isSegmentByte_of_mem_segmentsOf hs⟩
  rw [← hspread, ← hspread]
  exact ⟨congrArg spread,
    spread_inj (isAlnum_of_mem_identifier text) (isAlnum_of_mem_identifier text')⟩

/-- A type name tells the identifier that starts with a small letter. -/
theorem typeName_eq_iff (h : validate text = .ok name) (h' : validate text' = .ok name') :
    name.typeName = name'.typeName ↔ name.identifier = name'.identifier := by
  obtain ⟨b, rest, hid, hb⟩ := exists_identifier_of_validate h
  obtain ⟨c, rest', hid', hc⟩ := exists_identifier_of_validate h'
  obtain rfl := eq_ofText_of_validate h
  obtain rfl := eq_ofText_of_validate h'
  have hback : ∀ b, isLower b → toLower (toUpper b) = b := by decide +kernel
  have htype (text : Text) : (ofText text).typeName = capitalize (ofText text).identifier :=
    typeName_eq_capitalize_identifier fun s hs => ne_nil_of_mem_segmentsOf hs
  rw [htype, htype, hid, hid', capitalize, capitalize, List.cons.injEq, List.cons.injEq]
  refine and_congr_left fun _ => ⟨fun heq => ?_, congrArg toUpper⟩
  rw [← hback b hb, heq, hback c hc]

end Validated

end FlutterScaffold.Name
