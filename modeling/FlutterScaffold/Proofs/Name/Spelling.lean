import FlutterScaffold.Proofs.Name.Alphabet

/-!
# Texts that spell one name

The words of a name can be written with any other bytes between and around them, or run together
with a capital at the start of each. The reader finds the words again in all these texts: other
bytes end the segment under way (`segmentsFrom_gaps`), and so does a capital in front of a small
letter (`segmentsFrom_capitals`). So such texts spell the same name, and everything that is written
from the name is the same (`ofText_spellings`).
-/

namespace FlutterScaffold.Name

open Byte (isAlnum isDigit isLower isUpper toLower toUpper)

/-- The texts that can be a word of a name. -/
structure IsWord (s : Text) : Prop where
  ne_nil : s ≠ []
  isSegmentByte : ∀ b ∈ s, isSegmentByte b

/-- The texts that separate words. -/
def IsGap (t : Text) : Prop := ∀ b ∈ t, isAlnum b = false

/-- Words with gaps between them and around them: the first word, and the others behind their
gaps. -/
def spaced (lead first : Text) (more : List (Text × Text)) (trail : Text) : Text :=
  lead ++ (first ++ (more.flatMap (fun (gap, word) => gap ++ word) ++ trail))

/-- The segments of a text are words. -/
theorem isWord_of_mem_segmentsOf {text s : Text} (h : s ∈ segmentsOf text) : IsWord s :=
  ⟨ne_nil_of_mem_segmentsOf h, isSegmentByte_of_mem_segmentsOf h⟩

/-! ## One word -/

section Word

variable {current s gap : Text} {b : Byte}

/-- A byte that is no capital belongs to the segment under way. -/
theorem segmentsFrom_cons_of_segmentByte (hb : isSegmentByte b) (current rest : Text) :
    segmentsFrom current (b :: rest) = segmentsFrom (b :: current) rest := by
  have hsmall : ∀ b, isSegmentByte b → isUpper b = false := by decide +kernel
  have hstart : current.head?.any (startsSegment · b rest.head?) = false := by
    cases current <;> simp [startsSegment, hsmall b hb]
  rw [segmentsFrom, if_neg (by simp [isAlnum_of_isSegmentByte b hb]), if_neg (by simp [hstart])]

/-- A word is read into the segment under way. -/
theorem segmentsFrom_append_word (hs : ∀ b ∈ s, isSegmentByte b) (current rest : Text) :
    segmentsFrom current (s ++ rest) = segmentsFrom (s.reverse ++ current) rest := by
  induction s generalizing current with
  | nil => rfl
  | cons b s ih =>
    obtain ⟨hb, hs⟩ := List.forall_mem_cons.mp hs
    rw [List.cons_append, segmentsFrom_cons_of_segmentByte hb, ih hs]
    simp

/-- A gap in front of a text leaves its segments as they are. -/
theorem segmentsFrom_nil_append_gap (hgap : IsGap gap) (rest : Text) :
    segmentsFrom [] (gap ++ rest) = segmentsFrom [] rest := by
  induction gap with
  | nil => rfl
  | cons b gap ih =>
    obtain ⟨hb, hgap⟩ := List.forall_mem_cons.mp hgap
    rw [List.cons_append, segmentsFrom, if_pos (by simp [hb]), ih hgap]
    rfl

/-- A gap closes the segment under way. -/
theorem segmentsFrom_append_gap (hgap : IsGap gap) (hne : gap ≠ []) (current rest : Text) :
    segmentsFrom current (gap ++ rest) = closeSegment current ++ segmentsFrom [] rest := by
  obtain ⟨b, gap, rfl⟩ := List.exists_cons_of_ne_nil hne
  obtain ⟨hb, hgap⟩ := List.forall_mem_cons.mp hgap
  rw [List.cons_append, segmentsFrom, if_pos (by simp [hb]), segmentsFrom_nil_append_gap hgap]

theorem segmentsFrom_gap (hgap : IsGap gap) (current : Text) :
    segmentsFrom current gap = closeSegment current := by
  by_cases hne : gap = []
  · rw [hne, segmentsFrom]
  · have happend := segmentsFrom_append_gap hgap hne current []
    rw [List.append_nil] at happend
    rw [happend]
    exact List.append_nil _

/-- A word that was read is closed as one segment. -/
theorem closeSegment_reverse (hs : IsWord s) : closeSegment s.reverse = [s] := by
  have hsmall : ∀ b, isSegmentByte b → toLower b = b := by decide +kernel
  have hmap : s.map toLower = s := by
    conv_rhs => rw [← List.map_id s]
    exact List.map_congr_left fun b hb => hsmall b (hs.isSegmentByte b hb)
  rw [closeSegment, if_neg (by simpa using hs.ne_nil), List.reverse_reverse, hmap]

/-- A word is read the same with a capital. -/
theorem closeSegment_reverse_capitalize (hs : IsWord s) :
    closeSegment (capitalize s).reverse = [s] := by
  obtain ⟨b, rest, rfl⟩ := List.exists_cons_of_ne_nil hs.ne_nil
  have hback : ∀ b, isSegmentByte b → toLower (toUpper b) = toLower b := by decide +kernel
  have hword := closeSegment_reverse hs
  simp only [closeSegment, capitalize, List.reverse_reverse, List.map_cons] at hword ⊢
  simpa [hback b (hs.isSegmentByte b (List.mem_cons_self ..))] using hword

/-- A capital at the start of a text starts no segment of its own. -/
theorem segmentsFrom_nil_append_capitalize (hs : IsWord s) (rest : Text) :
    segmentsFrom [] (capitalize s ++ rest) = segmentsFrom (capitalize s).reverse rest := by
  obtain ⟨b, word, rfl⟩ := List.exists_cons_of_ne_nil hs.ne_nil
  obtain ⟨hb, hword⟩ := List.forall_mem_cons.mp hs.isSegmentByte
  rw [capitalize, List.cons_append, segmentsFrom, if_neg (by simp [isAlnum_toUpper b hb]),
    if_neg (by simp), segmentsFrom_append_word hword, List.reverse_cons]

/-- A capital behind a letter or a digit and in front of a small letter starts a segment. -/
theorem segmentsFrom_append_capitalize {before : Byte} (hbefore : isAlnum before) {b c : Byte}
    (hb : isLower b) (hc : isLower c) (hs : ∀ d ∈ s, isSegmentByte d) (rest : Text) :
    segmentsFrom (before :: current) (capitalize (b :: c :: s) ++ rest) =
      closeSegment (before :: current) ++
        segmentsFrom (capitalize (b :: c :: s)).reverse rest := by
  have hcapital : ∀ b, isLower b → isUpper (toUpper b) ∧ isAlnum (toUpper b) := by decide +kernel
  obtain ⟨hupper, halnum⟩ := hcapital b hb
  have hcut : startsSegment before (toUpper b) (some c) = true := by
    simp only [isAlnum, Bool.or_eq_true] at hbefore
    rcases hbefore with (h | h) | h <;> simp [startsSegment, hupper, hc, h]
  have hword : ∀ d ∈ c :: s, isSegmentByte d :=
    List.forall_mem_cons.mpr ⟨by simp [isSegmentByte, hc], hs⟩
  rw [capitalize, List.cons_append, segmentsFrom, if_neg (by simp [halnum]), List.head?_cons,
    Option.any_some, List.cons_append, List.head?_cons, if_pos hcut, ← List.cons_append,
    segmentsFrom_append_word hword, List.reverse_cons (a := toUpper b)]

end Word

/-! ## All words -/

/-- Words behind gaps are read one by one. -/
theorem segmentsFrom_gaps {first trail : Text} {more : List (Text × Text)}
    (hwords : ∀ s ∈ first :: more.map Prod.snd, IsWord s)
    (hgaps : ∀ gap ∈ more.map Prod.fst, gap ≠ [] ∧ IsGap gap) (htrail : IsGap trail) :
    segmentsFrom first.reverse (more.flatMap (fun (gap, word) => gap ++ word) ++ trail) =
      first :: more.map Prod.snd := by
  induction more generalizing first with
  | nil =>
    rw [List.flatMap_nil, List.nil_append, segmentsFrom_gap htrail,
      closeSegment_reverse (hwords first (List.mem_cons_self ..))]
    rfl
  | cons p more ih =>
    obtain ⟨gap, word⟩ := p
    obtain ⟨hfirst, hwords⟩ := List.forall_mem_cons.mp hwords
    obtain ⟨⟨hne, hgap⟩, hgaps⟩ := List.forall_mem_cons.mp hgaps
    have hword := (hwords word (List.mem_cons_self ..)).isSegmentByte
    rw [List.flatMap_cons, List.append_assoc, List.append_assoc, segmentsFrom_append_gap hgap hne,
      closeSegment_reverse hfirst, segmentsFrom_append_word hword, List.append_nil,
      ih hwords hgaps]
    rfl

/-- Words with gaps spell the name of these words. -/
theorem ofText_spaced {lead first trail : Text} {more : List (Text × Text)}
    (hwords : ∀ s ∈ first :: more.map Prod.snd, IsWord s)
    (hgaps : ∀ gap ∈ more.map Prod.fst, gap ≠ [] ∧ IsGap gap) (hlead : IsGap lead)
    (htrail : IsGap trail) :
    ofText (spaced lead first more trail) = ⟨first :: more.map Prod.snd⟩ := by
  have hfirst := (hwords first (List.mem_cons_self ..)).isSegmentByte
  rw [ofText, segmentsOf, spaced, segmentsFrom_nil_append_gap hlead,
    segmentsFrom_append_word hfirst, List.append_nil, segmentsFrom_gaps hwords hgaps htrail]

/-- Words that start with two small letters are read one by one when they start with a capital,
whatever letters and digits stand in front of them. -/
theorem segmentsFrom_capitals {current found : Text} {more : List Text} (hne : current ≠ [])
    (halnum : ∀ b ∈ current, isAlnum b) (hclose : closeSegment current = [found])
    (hwords : ∀ s ∈ more, IsWord s)
    (hletters : ∀ s ∈ more, ∃ b c rest, s = b :: c :: rest ∧ isLower b ∧ isLower c) :
    segmentsFrom current (more.flatMap capitalize) = found :: more := by
  induction more generalizing current found with
  | nil => rw [List.flatMap_nil, segmentsFrom, hclose]
  | cons s more ih =>
    obtain ⟨hs, hmore⟩ := List.forall_mem_cons.mp hwords
    obtain ⟨⟨b, c, rest, rfl, hb, hc⟩, hmoreLetters⟩ := List.forall_mem_cons.mp hletters
    obtain ⟨before, current, rfl⟩ := List.exists_cons_of_ne_nil hne
    have hbefore := halnum before (List.mem_cons_self ..)
    have hrest : ∀ d ∈ rest, isSegmentByte d := fun d hd => hs.isSegmentByte d (by simp [hd])
    have hcapital : ∀ d ∈ (capitalize (b :: c :: rest)).reverse, isAlnum d :=
      fun d hd => isAlnum_of_mem_capitalize hs.isSegmentByte d (List.mem_reverse.mp hd)
    rw [List.flatMap_cons, segmentsFrom_append_capitalize hbefore hb hc hrest, hclose,
      ih (by simp [capitalize]) hcapital (closeSegment_reverse_capitalize hs) hmore hmoreLetters]
    rfl

/-- Words that are run together spell their name, with or without a capital at the start, when no
word but the first starts with a digit or is a single letter. -/
theorem ofText_identifier_and_typeName {first : Text} {more : List Text} (hfirst : IsWord first)
    (hwords : ∀ s ∈ more, IsWord s)
    (hletters : ∀ s ∈ more, ∃ b c rest, s = b :: c :: rest ∧ isLower b ∧ isLower c) :
    let name : Name := ⟨first :: more⟩
    ofText name.identifier = name ∧ ofText name.typeName = name := by
  intro name
  constructor
  · have halnum : ∀ b ∈ first.reverse, isAlnum b :=
      fun b hb => isAlnum_of_isSegmentByte b (hfirst.isSegmentByte b (List.mem_reverse.mp hb))
    rw [ofText, segmentsOf, identifier, segmentsFrom_append_word hfirst.isSegmentByte,
      List.append_nil, segmentsFrom_capitals (by simpa using hfirst.ne_nil) halnum
        (closeSegment_reverse hfirst) hwords hletters]
  · have halnum : ∀ b ∈ (capitalize first).reverse, isAlnum b :=
      fun b hb => isAlnum_of_mem_capitalize hfirst.isSegmentByte b (List.mem_reverse.mp hb)
    have hne : (capitalize first).reverse ≠ [] := by
      obtain ⟨b, rest, rfl⟩ := List.exists_cons_of_ne_nil hfirst.ne_nil
      simp [capitalize]
    rw [ofText, segmentsOf, typeName, List.flatMap_cons, segmentsFrom_nil_append_capitalize hfirst,
      segmentsFrom_capitals hne halnum (closeSegment_reverse_capitalize hfirst) hwords hletters]

/-- Whatever other bytes stand between the words of a name and around them, they spell the same
name, with the same snake form, identifier, type name and path. When every word but the first starts
with two small letters, the identifier and the type name spell it too. -/
theorem ofText_spellings {first : Text} {more : List (Text × Text)}
    (hwords : ∀ s ∈ first :: more.map Prod.snd, IsWord s)
    (hgaps : ∀ gap ∈ more.map Prod.fst, gap ≠ [] ∧ IsGap gap) :
    let name : Name := ⟨first :: more.map Prod.snd⟩
    (∀ lead trail, IsGap lead → IsGap trail → ofText (spaced lead first more trail) = name) ∧
      ((∀ s ∈ more.map Prod.snd, ∃ b c rest, s = b :: c :: rest ∧ isLower b ∧ isLower c) →
        ofText name.identifier = name ∧ ofText name.typeName = name) := by
  intro name
  obtain ⟨hfirst, hlater⟩ := List.forall_mem_cons.mp hwords
  refine ⟨fun lead trail hlead htrail => ofText_spaced hwords hgaps hlead htrail, ?_⟩
  exact ofText_identifier_and_typeName hfirst hlater

/-- A single letter in front, digits at the end of a word, and bytes outside ASCII between words. -/
theorem ofText_spellings_odd_gaps :
    let more := [(lit " -é", lit "user2"), (lit "_", lit "id")]
    let name : Name := ⟨[lit "x", lit "user2", lit "id"]⟩
    (∀ s ∈ lit "x" :: more.map Prod.snd, IsWord s) ∧
      (∀ gap ∈ more.map Prod.fst, gap ≠ [] ∧ IsGap gap) ∧
      ofText (lit "/x -éuser2_id") = name ∧ ofText (lit "xUser2Id") = name ∧
      ofText (lit "XUser2Id") = name := by
  intro more name
  have hwords : ∀ s ∈ lit "x" :: more.map Prod.snd, IsWord s := by
    have hall : ∀ s ∈ lit "x" :: more.map Prod.snd, s ≠ [] ∧ s.all isSegmentByte := by
      decide
    exact fun s hs => ⟨(hall s hs).1, List.all_eq_true.mp (hall s hs).2⟩
  have hgaps : ∀ gap ∈ more.map Prod.fst, gap ≠ [] ∧ IsGap gap := by
    have hall : ∀ gap ∈ more.map Prod.fst, gap ≠ [] ∧ gap.all (!isAlnum ·) := by decide
    exact fun gap hgap => ⟨(hall gap hgap).1, by simpa [IsGap] using (hall gap hgap).2⟩
  have hletters : ∀ s ∈ more.map Prod.snd, ∃ b c rest, s = b :: c :: rest ∧ isLower b ∧ isLower c :=
    List.forall_mem_cons.mpr ⟨⟨_, _, _, rfl, by decide, by decide⟩,
      List.forall_mem_singleton.mpr ⟨_, _, _, rfl, by decide, by decide⟩⟩
  obtain ⟨hspaced, hcapitals⟩ := ofText_spellings hwords hgaps
  obtain ⟨hidentifier, htype⟩ := hcapitals hletters
  have hlead : IsGap (lit "/") := List.forall_mem_singleton.mpr (by decide)
  exact ⟨hwords, hgaps, hspaced (lit "/") [] hlead (by simp [IsGap]), hidentifier, htype⟩

end FlutterScaffold.Name
