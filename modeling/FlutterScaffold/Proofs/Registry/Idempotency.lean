import FlutterScaffold.Proofs.Registry.Repetition

/-!
# Patching a second time

A second patch with the same route changes nothing exactly when it finds what the first one wrote
(`patch_again_iff`). The entry is always found. The import and the constants are found when nothing
but blanks stands behind their anchors; text that follows an anchor on its line ends up behind the
declaration and hides it, unless the lines up to the anchor spell the very same declaration. A comma
that the entry brings may hide them too when the code in front of it ends with one of their lines.
-/

namespace FlutterScaffold.Registry

open FlutterScaffold.Text (splice block IsLineBreak)
open Byte (newline)

section Second

variable {spec : AnchorSpec} {doc : Text} {route : Route} {policy : Policy}

/-- The document that the constants are merged into. -/
def imported (spec : AnchorSpec) (policy : Policy) (doc : Text) (route : Route) : Text :=
  match policy with
  | .atomic => doc
  | .bestEffort => splice doc (mergeImport doc (spec.scan doc) route).insertions

/-- The document with the import and the constants, but without the entry. -/
def declared (spec : AnchorSpec) (policy : Policy) (doc : Text) (route : Route) : Text :=
  let seen := imported spec policy doc route
  let constants := (mergeConstants seen (spec.scan seen) route).insertions
  match policy with
  | .atomic => splice doc ((mergeImport doc (spec.scan doc) route).insertions ++ constants)
  | .bestEffort => splice seen constants

/-- A result that has what it was to get: the import unless nothing was done, and the constants when
they were reached. -/
def Outcome.Recognized (outcome : Outcome) (route : Route) : Prop :=
  (outcome.detail ≠ .noAnchor → declares outcome.text (importLines route)) ∧
    (outcome.detail = .full ∨ outcome.detail = .importAndConstants →
      declares outcome.text (constantLines route))

/-- The statements of a route fit their places: they stay recognizable there, the import also when
the constants are written right behind it. -/
def StatementsFit (spec : AnchorSpec) (policy : Policy) (doc : Text) (route : Route) : Prop :=
  let seen := imported spec policy doc route
  let constants := (mergeConstants seen (spec.scan seen) route).insertions
  let detail := (patch spec policy doc route).detail
  (detail ≠ .noAnchor → ∀ i ∈ (mergeImport doc (spec.scan doc) route).insertions,
    Fits doc (importLines route) i ∨ (policy = .atomic ∧ ∃ j ∈ constants, j.offset = i.offset)) ∧
  (detail = .full ∨ detail = .importAndConstants →
    ∀ i ∈ constants, Fits seen (constantLines route) i)

/-- A splice never makes a text shorter, and it keeps the length only when it inserts nothing. -/
theorem eq_nil_of_length_splice_le {l : List Insertion} (hl : ∀ i ∈ l, i.text ≠ [])
    (h : (splice doc l).length ≤ doc.length) : l = [] := by
  rw [Text.length_splice] at h
  have hzero : Insertion.added l = 0 := by omega
  cases l with
  | nil => rfl
  | cons i l =>
    rw [Insertion.added_cons] at hzero
    exact absurd (List.eq_nil_of_length_eq_zero (by omega)) (hl i (List.mem_cons_self ..))

/-- A splice makes no text shorter. -/
theorem length_le_length_splice (doc : Text) (l : List Insertion) :
    doc.length ≤ (splice doc l).length := by
  rw [Text.length_splice]
  exact Nat.le_add_right _ _

/-- A block of lines is not empty, since it starts with a line break. -/
private theorem block_ne_nil {nl indent line : Text} {more : List Text} (hnl : IsLineBreak nl) :
    block nl indent (line :: more) ≠ [] := by
  rcases hnl with rfl | rfl <;> simp [Text.crlf]

/-- What the import's merge inserts is not empty. -/
theorem text_ne_nil_of_mem_mergeImport :
    ∀ i ∈ (mergeImport doc (spec.scan doc) route).insertions, i.text ≠ [] := by
  intro i hi
  obtain ⟨e, -, heq⟩ := mergeImport_eq_insert (List.ne_nil_of_mem hi)
  rw [heq] at hi
  obtain rfl := List.mem_singleton.mp hi
  exact block_ne_nil (Text.isLineBreak_lineBreak doc)

/-- What the constants' merge inserts is not empty. -/
theorem text_ne_nil_of_mem_mergeConstants :
    ∀ i ∈ (mergeConstants doc (spec.scan doc) route).insertions, i.text ≠ [] := by
  intro i hi
  obtain ⟨e, -, heq⟩ := mergeConstants_eq_insert (List.ne_nil_of_mem hi)
  rw [heq] at hi
  obtain rfl := List.mem_singleton.mp hi
  exact block_ne_nil (Text.isLineBreak_lineBreak doc)

/-- The atomic policy does nothing where a place is missing. -/
theorem patchAtomic_of_missing
    (h : (mergeImport doc (spec.scan doc) route).status = .missing ∨
      (mergeConstants doc (spec.scan doc) route).status = .missing ∨
      (mergeEntry spec doc (spec.scan doc) route).status = .missing) :
    (patchAtomic spec doc route).detail = .noAnchor ∧ (patchAtomic spec doc route).text = doc ∧
      (patchAtomic spec doc route).modified = false := by
  have hif : (decide ((mergeImport doc (spec.scan doc) route).status = .missing) ||
      decide ((mergeConstants doc (spec.scan doc) route).status = .missing) ||
      decide ((mergeEntry spec doc (spec.scan doc) route).status = .missing)) = true := by
    simpa [or_assoc] using h
  simp only [patchAtomic, hif, if_true, and_self]

/-- The atomic policy applies all merges where no place is missing. -/
theorem patchAtomic_of_ne_missing
    (hi : (mergeImport doc (spec.scan doc) route).status ≠ .missing)
    (hc : (mergeConstants doc (spec.scan doc) route).status ≠ .missing)
    (he : (mergeEntry spec doc (spec.scan doc) route).status ≠ .missing) :
    (patchAtomic spec doc route).detail = .full ∧
      (patchAtomic spec doc route).text =
        splice doc ((mergeImport doc (spec.scan doc) route).insertions ++
          (mergeConstants doc (spec.scan doc) route).insertions ++
          (mergeEntry spec doc (spec.scan doc) route).insertions) ∧
      ((patchAtomic spec doc route).modified = false ↔
        (mergeImport doc (spec.scan doc) route).insertions ++
          (mergeConstants doc (spec.scan doc) route).insertions ++
          (mergeEntry spec doc (spec.scan doc) route).insertions = []) := by
  simp only [patchAtomic, hi, hc, he, decide_false, Bool.or_self, Bool.false_eq_true, if_false,
    true_and, Bool.not_eq_false', List.isEmpty_iff]

/-- The atomic policy leaves the document alone, or it makes all insertions. -/
theorem text_patchAtomic (spec : AnchorSpec) (doc : Text) (route : Route) :
    (patchAtomic spec doc route).text = doc ∨
      (patchAtomic spec doc route).text =
        splice doc ((mergeImport doc (spec.scan doc) route).insertions ++
          (mergeConstants doc (spec.scan doc) route).insertions ++
          (mergeEntry spec doc (spec.scan doc) route).insertions) := by
  by_cases hmissing : (mergeImport doc (spec.scan doc) route).status = .missing ∨
      (mergeConstants doc (spec.scan doc) route).status = .missing ∨
      (mergeEntry spec doc (spec.scan doc) route).status = .missing
  · exact Or.inl (patchAtomic_of_missing hmissing).2.1
  · obtain ⟨hi, hc, he⟩ := not_or.mp hmissing |>.imp_right not_or.mp
    exact Or.inr (patchAtomic_of_ne_missing hi hc he).2.1

/-- Where the entry is there, the atomic policy leaves a text alone exactly when the statements are
there too. -/
private theorem patchAtomic_unchanged_iff {T : Text} (hentry : declares T (entryLines spec route)) :
    ((patchAtomic spec T route).detail = .full ∧ (patchAtomic spec T route).text = T ∧
      (patchAtomic spec T route).modified = false) ↔
        declares T (importLines route) ∧ declares T (constantLines route) := by
  have hkeep : mergeEntry spec T (spec.scan T) route = .keep := mergeEntry_of_declares hentry
  have himport : ((mergeImport T (spec.scan T) route).insertions = [] ∧
      (mergeImport T (spec.scan T) route).status ≠ .missing) ↔
        declares T (importLines route) := mergeImport_insertions_eq_nil_iff
  have hconstants : ((mergeConstants T (spec.scan T) route).insertions = [] ∧
      (mergeConstants T (spec.scan T) route).status ≠ .missing) ↔
        declares T (constantLines route) := mergeConstants_insertions_eq_nil_iff
  rw [← himport, ← hconstants]
  by_cases hmissing : (mergeImport T (spec.scan T) route).status = .missing ∨
      (mergeConstants T (spec.scan T) route).status = .missing ∨
      (mergeEntry spec T (spec.scan T) route).status = .missing
  · refine iff_of_false (by simp [(patchAtomic_of_missing hmissing).1]) ?_
    rintro ⟨⟨-, hi⟩, -, hc⟩
    rw [hkeep] at hmissing
    exact hmissing.elim hi (·.elim hc (by simp [Step.status]))
  · obtain ⟨hi, hc, he⟩ := not_or.mp hmissing |>.imp_right not_or.mp
    obtain ⟨hdetail, htext, hmodified⟩ := patchAtomic_of_ne_missing hi hc he
    rw [hmodified, hdetail, htext, hkeep]
    simp only [Step.insertions, List.append_nil, List.append_eq_nil_iff, true_and]
    constructor
    · rintro ⟨-, hinil, hcnil⟩
      exact ⟨⟨hinil, hi⟩, hcnil, hc⟩
    · rintro ⟨⟨hinil, -⟩, hcnil, -⟩
      rw [hinil, hcnil]
      exact ⟨rfl, rfl, rfl⟩

/-- The atomic policy reproduces its result exactly when the result has all declarations. The entry
is written last, so it is found again; what counts is whether the others are. -/
private theorem patchAtomic_again_iff (hs : spec.Accepted) (hr : route.Regular)
    (hpath : newline ∉ route.importPath) {first second : Outcome}
    (hfirst : first = patchAtomic spec doc route)
    (hsecond : second = patchAtomic spec first.text route) :
    (second.detail = first.detail ∧ second.text = first.text ∧ second.modified = false) ↔
      first.Recognized route := by
  by_cases hmissing : (mergeImport doc (spec.scan doc) route).status = .missing ∨
      (mergeConstants doc (spec.scan doc) route).status = .missing ∨
      (mergeEntry spec doc (spec.scan doc) route).status = .missing
  · obtain ⟨hdetail, htext, hmodified⟩ := patchAtomic_of_missing hmissing
    rw [← hfirst] at hdetail htext hmodified
    obtain rfl : second = first := by rw [hsecond, htext, ← hfirst]
    exact iff_of_true ⟨rfl, rfl, hmodified⟩ ⟨by simp [hdetail], by simp [hdetail]⟩
  · obtain ⟨hi, hc, he⟩ := not_or.mp hmissing |>.imp_right not_or.mp
    obtain ⟨hdetail, htext, -⟩ := patchAtomic_of_ne_missing hi hc he
    rw [← hfirst] at hdetail htext
    have hentry : declares first.text (entryLines spec route) := by
      rw [htext, List.append_assoc, declares_entryLines_mergeImport _ hs hr hpath,
        declares_entryLines_mergeConstants _ hs hr hr]
      exact declares_entryLines_mergeEntry hs hr he
    have hrecognized : first.Recognized route ↔
        declares first.text (importLines route) ∧ declares first.text (constantLines route) := by
      rw [Outcome.Recognized, hdetail]
      simp
    rw [hrecognized, hsecond, hdetail]
    exact patchAtomic_unchanged_iff hentry

/-- Without a place for the import the best-effort policy leaves the document alone. -/
theorem patchBestEffort_of_import_missing
    (hi : (mergeImport doc (spec.scan doc) route).status = .missing) :
    (patchBestEffort spec doc route).detail = .noAnchor ∧
      (patchBestEffort spec doc route).text = doc ∧
      (patchBestEffort spec doc route).modified = false := by
  simp only [patchBestEffort, hi, if_true, and_self]

/-- Without a place for the constants the best-effort policy makes the import's insertions alone. -/
theorem patchBestEffort_of_constants_missing {seen : Text}
    (hseen : splice doc (mergeImport doc (spec.scan doc) route).insertions = seen)
    (hi : (mergeImport doc (spec.scan doc) route).status ≠ .missing)
    (hc : (mergeConstants seen (spec.scan seen) route).status = .missing) :
    (patchBestEffort spec doc route).detail = .importOnly ∧
      (patchBestEffort spec doc route).text = seen ∧
      (patchBestEffort spec doc route).modified = (seen != doc) := by
  simp only [patchBestEffort, hi, hseen, hc, if_false, if_true, and_self]

/-- Where both statements have their places, the best-effort policy makes all three merges, each in
the text that the one in front of it left. -/
theorem patchBestEffort_of_ne_missing {seen done : Text}
    (hseen : splice doc (mergeImport doc (spec.scan doc) route).insertions = seen)
    (hdone : splice seen (mergeConstants seen (spec.scan seen) route).insertions = done)
    (hi : (mergeImport doc (spec.scan doc) route).status ≠ .missing)
    (hc : (mergeConstants seen (spec.scan seen) route).status ≠ .missing) :
    (patchBestEffort spec doc route).detail =
        (if (mergeEntry spec done (spec.scan done) route).status = .missing
          then .importAndConstants else .full) ∧
      (patchBestEffort spec doc route).text =
        splice done (mergeEntry spec done (spec.scan done) route).insertions ∧
      (patchBestEffort spec doc route).modified =
        (splice done (mergeEntry spec done (spec.scan done) route).insertions != doc) := by
  simp only [patchBestEffort, hi, hseen, hc, hdone, if_false, and_self]

/-- The best-effort policy stops in front of a merge, or it makes the insertions of all three. -/
theorem text_patchBestEffort (spec : AnchorSpec) (doc : Text) (route : Route) : ∃ seen done,
    splice doc (mergeImport doc (spec.scan doc) route).insertions = seen ∧
      splice seen (mergeConstants seen (spec.scan seen) route).insertions = done ∧
      ((patchBestEffort spec doc route).text = doc ∨ (patchBestEffort spec doc route).text = seen ∨
        (patchBestEffort spec doc route).text =
          splice done (mergeEntry spec done (spec.scan done) route).insertions) := by
  obtain ⟨seen, hseen⟩ : ∃ seen, splice doc (mergeImport doc (spec.scan doc) route).insertions =
      seen := ⟨_, rfl⟩
  obtain ⟨done, hdone⟩ : ∃ done,
      splice seen (mergeConstants seen (spec.scan seen) route).insertions = done := ⟨_, rfl⟩
  refine ⟨seen, done, hseen, hdone, ?_⟩
  by_cases hi : (mergeImport doc (spec.scan doc) route).status = .missing
  · exact Or.inl (patchBestEffort_of_import_missing hi).2.1
  · refine Or.inr ?_
    by_cases hc : (mergeConstants seen (spec.scan seen) route).status = .missing
    · exact Or.inl (patchBestEffort_of_constants_missing hseen hi hc).2.1
    · exact Or.inr (patchBestEffort_of_ne_missing hseen hdone hi hc).2.1

/-- A best-effort patch that leaves the text alone found what it looked for. Splices only make a
text longer, so each of the three left its text as it was. -/
private theorem recognized_of_text_eq (h : (patchBestEffort spec doc route).text = doc) :
    (patchBestEffort spec doc route).Recognized route := by
  obtain ⟨seen, hseen⟩ : ∃ seen, splice doc (mergeImport doc (spec.scan doc) route).insertions =
      seen := ⟨_, rfl⟩
  obtain ⟨done, hdone⟩ : ∃ done,
      splice seen (mergeConstants seen (spec.scan seen) route).insertions = done := ⟨_, rfl⟩
  rw [Outcome.Recognized, h]
  by_cases hi : (mergeImport doc (spec.scan doc) route).status = .missing
  · have hdetail := (patchBestEffort_of_import_missing hi).1
    simp [hdetail]
  · have himport (hle : seen.length ≤ doc.length) : declares doc (importLines route) = true ∧
        seen = doc := by
      have hnil := eq_nil_of_length_splice_le text_ne_nil_of_mem_mergeImport (hseen ▸ hle)
      refine ⟨mergeImport_insertions_eq_nil_iff.mp ⟨hnil, hi⟩, ?_⟩
      rw [← hseen, hnil, Text.splice_nil]
    by_cases hc : (mergeConstants seen (spec.scan seen) route).status = .missing
    · obtain ⟨hdetail, htext, -⟩ := patchBestEffort_of_constants_missing hseen hi hc
      have hle : seen.length ≤ doc.length := by rw [← htext, h]
      simp [hdetail, (himport hle).1]
    · obtain ⟨-, htext, -⟩ := patchBestEffort_of_ne_missing hseen hdone hi hc
      have hentered := length_le_length_splice done
        (mergeEntry spec done (spec.scan done) route).insertions
      have hdeclared := length_le_length_splice seen
        (mergeConstants seen (spec.scan seen) route).insertions
      rw [hdone] at hdeclared
      rw [← htext, h] at hentered
      obtain ⟨hpresent, rfl⟩ := himport (hdeclared.trans hentered)
      have hnil := eq_nil_of_length_splice_le text_ne_nil_of_mem_mergeConstants
        (hdone ▸ hentered)
      exact ⟨fun _ => hpresent, fun _ => mergeConstants_insertions_eq_nil_iff.mp ⟨hnil, hc⟩⟩

/-- A text that has the import but no place for the constants is left alone. -/
private theorem patchBestEffort_of_declares_import {T : Text}
    (himport : declares T (importLines route))
    (hc : (mergeConstants T (spec.scan T) route).status = .missing) :
    (patchBestEffort spec T route).detail = .importOnly ∧
      (patchBestEffort spec T route).text = T ∧
        (patchBestEffort spec T route).modified = false := by
  have hkeep : mergeImport T (spec.scan T) route = .keep := mergeImport_of_declares himport
  have hagain : splice T (mergeImport T (spec.scan T) route).insertions = T := by
    rw [hkeep]
    rfl
  obtain ⟨hdetail, htext, hmodified⟩ := patchBestEffort_of_constants_missing hagain
    (by rw [hkeep]; simp [Step.status]) hc
  exact ⟨hdetail, htext, by rw [hmodified]; simp⟩

/-- In a text that has the statements, the best-effort policy decides about the entry alone. -/
private theorem patchBestEffort_of_declares (spec : AnchorSpec) {T : Text}
    (himport : declares T (importLines route)) (hconstants : declares T (constantLines route)) :
    (patchBestEffort spec T route).detail =
        (if (mergeEntry spec T (spec.scan T) route).status = .missing
          then .importAndConstants else .full) ∧
      (patchBestEffort spec T route).text =
        splice T (mergeEntry spec T (spec.scan T) route).insertions ∧
      (patchBestEffort spec T route).modified =
        (splice T (mergeEntry spec T (spec.scan T) route).insertions != T) := by
  have hkeep : mergeImport T (spec.scan T) route = .keep := mergeImport_of_declares himport
  have hkeep' : mergeConstants T (spec.scan T) route = .keep :=
    mergeConstants_of_declares hconstants
  have hagain : splice T (mergeImport T (spec.scan T) route).insertions = T := by
    rw [hkeep]
    rfl
  have hagain' : splice T (mergeConstants T (spec.scan T) route).insertions = T := by
    rw [hkeep']
    rfl
  exact patchBestEffort_of_ne_missing hagain hagain' (by rw [hkeep]; simp [Step.status])
    (by rw [hkeep']; simp [Step.status])

/-- A best-effort patch whose declarations are found again reproduces its result. -/
private theorem patchBestEffort_again_of_recognized (hs : spec.Accepted) (hr : route.Regular)
    {first second : Outcome} (hfirst : first = patchBestEffort spec doc route)
    (hsecond : second = patchBestEffort spec first.text route) (h : first.Recognized route) :
    second.detail = first.detail ∧ second.text = first.text ∧ second.modified = false := by
  obtain ⟨seen, hseen⟩ : ∃ seen, splice doc (mergeImport doc (spec.scan doc) route).insertions =
      seen := ⟨_, rfl⟩
  obtain ⟨done, hdone⟩ : ∃ done,
      splice seen (mergeConstants seen (spec.scan seen) route).insertions = done := ⟨_, rfl⟩
  by_cases hi : (mergeImport doc (spec.scan doc) route).status = .missing
  · obtain ⟨hdetail, htext, hmodified⟩ := patchBestEffort_of_import_missing hi
    rw [← hfirst] at htext hmodified
    obtain rfl : second = first := by rw [hsecond, htext, ← hfirst]
    exact ⟨rfl, rfl, hmodified⟩
  by_cases hc : (mergeConstants seen (spec.scan seen) route).status = .missing
  · obtain ⟨hdetail, htext, -⟩ := patchBestEffort_of_constants_missing hseen hi hc
    rw [← hfirst] at hdetail htext
    rw [← htext] at hc
    obtain ⟨hdetail', htext', hmodified'⟩ :=
      patchBestEffort_of_declares_import (h.1 (by simp [hdetail])) hc
    rw [hsecond, hdetail]
    exact ⟨hdetail', htext', hmodified'⟩
  · obtain ⟨hdetail, htext, -⟩ := patchBestEffort_of_ne_missing hseen hdone hi hc
    rw [← hfirst] at hdetail htext
    have hreached : first.detail = .full ∨ first.detail = .importAndConstants := by
      rw [hdetail]
      split
      · exact Or.inr rfl
      · exact Or.inl rfl
    obtain ⟨hdetail', htext', hmodified'⟩ := patchBestEffort_of_declares spec
      (h.1 (by rcases hreached with h | h <;> simp [h])) (h.2 hreached)
    rw [hsecond, hdetail', htext', hmodified', hdetail]
    by_cases he : (mergeEntry spec done (spec.scan done) route).status = .missing
    · rw [Step.insertions_of_missing he, Text.splice_nil] at htext
      rw [htext, Step.insertions_of_missing he]
      simp
    · have hentry : mergeEntry spec first.text (spec.scan first.text) route = .keep :=
        mergeEntry_of_declares (htext ▸ declares_entryLines_mergeEntry hs hr he)
      rw [hentry, if_neg he]
      simp [Step.status, Step.insertions]

/-- The best-effort policy reproduces its result exactly when the result has the declarations that
were reached. -/
private theorem patchBestEffort_again_iff (hs : spec.Accepted) (hr : route.Regular)
    {first second : Outcome} (hfirst : first = patchBestEffort spec doc route)
    (hsecond : second = patchBestEffort spec first.text route) :
    (second.detail = first.detail ∧ second.text = first.text ∧ second.modified = false) ↔
      first.Recognized route := by
  refine ⟨?_, patchBestEffort_again_of_recognized hs hr hfirst hsecond⟩
  rintro ⟨hdetail, htext, -⟩
  have hrecognized := recognized_of_text_eq (hsecond ▸ htext)
  rwa [← hsecond, Outcome.Recognized, hdetail, htext] at hrecognized

/-- What the atomic policy writes is recognized exactly when the statements fit their places. The
entry is neutral, and neither statement is declared by the lines of the other one. -/
private theorem patchAtomic_recognized_iff (hr : route.Regular) (hpath : newline ∉ route.importPath)
    (hneutral : (patchAtomic spec doc route).detail = .full →
      ∀ declaration ∈ [importLines route, constantLines route],
        declares (patchAtomic spec doc route).text declaration =
          declares (declared spec .atomic doc route) declaration) :
    (patchAtomic spec doc route).Recognized route ↔ StatementsFit spec .atomic doc route := by
  by_cases hmissing : (mergeImport doc (spec.scan doc) route).status = .missing ∨
      (mergeConstants doc (spec.scan doc) route).status = .missing ∨
      (mergeEntry spec doc (spec.scan doc) route).status = .missing
  · obtain ⟨hdetail, -, -⟩ := patchAtomic_of_missing hmissing
    simp [Outcome.Recognized, StatementsFit, patch, hdetail]
  · obtain ⟨hi, hc, he⟩ := not_or.mp hmissing |>.imp_right not_or.mp
    obtain ⟨hdetail, -, -⟩ := patchAtomic_of_ne_missing hi hc he
    obtain ⟨himport, hconstants⟩ : _ ∧ _ := by
      simpa only [List.forall_mem_cons, List.not_mem_nil, false_implies, implies_true, and_true]
        using hneutral hdetail
    simp only [Outcome.Recognized, StatementsFit, patch, hdetail, imported, himport, hconstants,
      declared, declares_constantLines_mergeImport hpath (fun _ h => h),
      declares_importLines_mergeImport_iff hr hpath (Or.inr rfl) hi,
      declares_constantLines_mergeConstants_iff hr hc]
    simp

/-- What the best-effort policy writes is recognized exactly when the statements fit their places.
Each declaration is followed to the result: the import over the constants and the entry, the
constants over the entry. -/
private theorem patchBestEffort_recognized_iff (hr : route.Regular)
    (hpath : newline ∉ route.importPath)
    (hneutral : (patchBestEffort spec doc route).detail = .full →
      ∀ declaration ∈ [importLines route, constantLines route],
        declares (patchBestEffort spec doc route).text declaration =
          declares (declared spec .bestEffort doc route) declaration) :
    (patchBestEffort spec doc route).Recognized route ↔
      StatementsFit spec .bestEffort doc route := by
  obtain ⟨seen, hseen⟩ : ∃ seen, splice doc (mergeImport doc (spec.scan doc) route).insertions =
      seen := ⟨_, rfl⟩
  obtain ⟨done, hdone⟩ : ∃ done,
      splice seen (mergeConstants seen (spec.scan seen) route).insertions = done := ⟨_, rfl⟩
  by_cases hi : (mergeImport doc (spec.scan doc) route).status = .missing
  · obtain ⟨hdetail, -, -⟩ := patchBestEffort_of_import_missing hi
    simp [Outcome.Recognized, StatementsFit, patch, hdetail]
  · have himport : declares seen (importLines route) ↔
        ∀ i ∈ (mergeImport doc (spec.scan doc) route).insertions,
          Fits doc (importLines route) i := by
      have h := declares_importLines_mergeImport_iff hr hpath (Or.inl rfl) hi
      rw [List.append_nil, hseen] at h
      simpa using h
    by_cases hc : (mergeConstants seen (spec.scan seen) route).status = .missing
    · obtain ⟨hdetail, htext, -⟩ := patchBestEffort_of_constants_missing hseen hi hc
      simp [Outcome.Recognized, StatementsFit, patch, hdetail, htext, himport]
    · obtain ⟨hdetail, htext, -⟩ := patchBestEffort_of_ne_missing hseen hdone hi hc
      have hkept : declares done (importLines route) ↔
          ∀ i ∈ (mergeImport doc (spec.scan doc) route).insertions,
            Fits doc (importLines route) i := by
        rw [← hdone, declares_importLines_mergeConstants hr]
        exact himport
      have hconstants : declares done (constantLines route) ↔
          ∀ i ∈ (mergeConstants seen (spec.scan seen) route).insertions,
            Fits seen (constantLines route) i := by
        rw [← hdone]
        exact declares_constantLines_mergeConstants_iff hr hc
      have hdeclared : declared spec .bestEffort doc route = done := by
        simp only [declared, imported, hseen, hdone]
      have hresult : ∀ declaration ∈ [importLines route, constantLines route],
          declares (patchBestEffort spec doc route).text declaration =
            declares done declaration := by
        by_cases he : (mergeEntry spec done (spec.scan done) route).status = .missing
        · rw [htext, Step.insertions_of_missing he, Text.splice_nil]
          exact fun _ _ => rfl
        · rw [if_neg he] at hdetail
          exact hdeclared ▸ hneutral hdetail
      obtain ⟨hresult, hresult'⟩ : _ ∧ _ := by
        simpa only [List.forall_mem_cons, List.not_mem_nil, false_implies, implies_true, and_true]
          using hresult
      simp only [Outcome.Recognized, StatementsFit, patch, hresult, hresult', hkept, hconstants,
        imported, hseen]
      simp

end Second

/-- Patching again reproduces a result exactly when the result still declares what was written, and
as long as the entry does not touch the import and the constants this comes down to where they were
written: with nothing but blanks behind them on their lines, or below the very same lines. -/
theorem patch_again_iff {spec : AnchorSpec} {text importPath : Text} {name : Name} (doc : Text)
    (policy : Policy) (hs : spec.Accepted) (hname : Name.validate text = .ok name)
    (hpath : newline ∉ importPath) :
    let route := Route.ofFeature name importPath
    let first := patch spec policy doc route
    let second := patch spec policy first.text route
    ((second.detail = first.detail ∧ second.text = first.text ∧ second.modified = false) ↔
      first.Recognized route) ∧
    ((first.detail = .full → ∀ declaration ∈ [importLines route, constantLines route],
        declares first.text declaration =
          declares (declared spec policy doc route) declaration) →
      (first.Recognized route ↔ StatementsFit spec policy doc route)) := by
  intro route first second
  have hr : route.Regular := Route.regular_ofFeature hname importPath
  cases policy with
  | atomic => exact ⟨patchAtomic_again_iff hs hr hpath rfl rfl, patchAtomic_recognized_iff hr hpath⟩
  | bestEffort =>
    exact ⟨patchBestEffort_again_iff hs hr rfl rfl, patchBestEffort_recognized_iff hr hpath⟩

/-- A comment behind the last import ends up behind the new one, and a second patch writes the new
one again. -/
theorem patch_again_iff_trailing_comment :
    let doc := lit "import 'a'; // home\n" ++
      lit "class Router \x7b\n  static const String aName = 'a';\n\x7d\nroutes: [\n]\n"
    let route := Route.ofFeature (Name.ofText (lit "x")) (lit "x.dart")
    let first := patch {} .atomic doc route
    let second := patch {} .atomic first.text route
    first.detail = .full ∧
      ¬ (second.detail = first.detail ∧ second.text = first.text ∧ second.modified = false) := by
  intro doc route first second
  have hs : AnchorSpec.Accepted {} := ⟨by decide, by decide, by decide⟩
  have hagain := (patch_again_iff doc .atomic hs
    (show Name.validate (lit "x") = .ok (Name.ofText (lit "x")) by rfl)
    (show newline ∉ lit "x.dart" by decide)).1
  have hfull : first.detail = .full := by decide
  have habsent : declares first.text (importLines route) = false := by decide +kernel
  refine ⟨hfull, fun h => ?_⟩
  have hpresent := (hagain.mp h).1 (by rw [hfull]; decide)
  rw [habsent] at hpresent
  exact absurd hpresent (by decide)

end FlutterScaffold.Registry
