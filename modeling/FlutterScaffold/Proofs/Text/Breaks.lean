import FlutterScaffold.Proofs.Text.Search
import FlutterScaffold.Proofs.Text.Splices

/-!
# Line breaks of a text that is edited

A newline is bare when no carriage return stands in front of it. Where two texts meet, no line break
is made or split unless the first one ends with a carriage return, so the bare newlines of both are
counted apart (`bareNewlines_append`). Hence insertions that stand behind other bytes, end with
other bytes and bring the line breaks that the document has (`Insertion.Suits`) leave a document
with the same kinds of line breaks (`keepsBreaks_splice`).
-/

namespace FlutterScaffold

open Byte (newline carriageReturn isBlank)

namespace Text

/-- How many newlines have no carriage return in front, in a text that follows one or not. -/
def bareNewlinesAfter (afterReturn : Bool) : Text → Nat
  | [] => 0
  | b :: rest =>
    (if b = newline ∧ afterReturn = false then 1 else 0) +
      bareNewlinesAfter (b = carriageReturn) rest

/-- How many newlines of a text have no carriage return in front. -/
def bareNewlines (t : Text) : Nat := bareNewlinesAfter false t

/-- Each carriage return stands in front of a newline. -/
def NoLoneReturn (t : Text) : Prop := ∀ a b, t = a ++ carriageReturn :: b → b.head? = some newline

/-- A text whose line breaks are all the two-byte one, which it has at least once. -/
structure UsesCrlf (t : Text) : Prop where
  occurs : crlf <:+: t
  newlines : ∀ a b, t = a ++ newline :: b → a.getLast? = some carriageReturn
  returns : NoLoneReturn t

/-- A text within a line. -/
def OneLine (t : Text) : Prop := carriageReturn ∉ t ∧ newline ∉ t

instance (t : Text) : Decidable (OneLine t) := inferInstanceAs (Decidable (_ ∧ _))

/-- A text that brings only line breaks of a document and is not split from them at its end. -/
structure Suits (doc t : Text) : Prop where
  last : carriageReturn ∉ t.getLast?
  newlines : crlf <:+: doc → bareNewlines t = 0
  plain : ¬ crlf <:+: doc → carriageReturn ∉ t
  returns : NoLoneReturn t

/-- A text has the kinds of line breaks that a document has. -/
structure KeepsBreaks (doc t : Text) : Prop where
  crlf_iff : crlf <:+: t ↔ crlf <:+: doc
  newlines : crlf <:+: doc → bareNewlines t = bareNewlines doc
  plain : carriageReturn ∉ doc → carriageReturn ∉ t
  returns : NoLoneReturn doc → NoLoneReturn t

variable {doc a b t u : Text}

/-! ## Where two texts meet -/

/-- The bare newlines of two texts are counted one after the other. -/
theorem bareNewlinesAfter_append (afterReturn : Bool) (a b : Text) :
    bareNewlinesAfter afterReturn (a ++ b) = bareNewlinesAfter afterReturn a +
      bareNewlinesAfter (if a = [] then afterReturn else a.getLast? = some carriageReturn) b := by
  induction a generalizing afterReturn with
  | nil => simp [bareNewlinesAfter]
  | cons x a ih =>
    rw [List.cons_append, bareNewlinesAfter, bareNewlinesAfter, ih, Nat.add_assoc]
    cases a <;> simp

/-- The bare newlines of two texts are counted apart, unless a carriage return stands between. -/
theorem bareNewlines_append (ha : carriageReturn ∉ a.getLast?) (b : Text) :
    bareNewlines (a ++ b) = bareNewlines a + bareNewlines b := by
  have hlast : a.getLast? ≠ some carriageReturn := ha
  rw [bareNewlines, bareNewlinesAfter_append]
  simp [hlast, bareNewlines]

/-- No newline is bare when each stands behind a carriage return. -/
theorem bareNewlinesAfter_eq_zero_iff {afterReturn : Bool} :
    bareNewlinesAfter afterReturn t = 0 ↔ ∀ a b, t = a ++ newline :: b →
      if a = [] then afterReturn = true else a.getLast? = some carriageReturn := by
  induction t generalizing afterReturn with
  | nil => simp [bareNewlinesAfter]
  | cons x t ih =>
    rw [bareNewlinesAfter, Nat.add_eq_zero_iff, ih]
    constructor
    · rintro ⟨hfirst, hrest⟩ a b heq
      cases a with
      | nil =>
        obtain ⟨rfl, -⟩ := List.cons.inj heq
        simpa using hfirst
      | cons y a =>
        obtain ⟨rfl, rfl⟩ := List.cons.inj heq
        have hnext := hrest a b rfl
        cases a <;> simpa using hnext
    · intro h
      constructor
      · by_cases hx : x = newline
        · have hfirst := h [] t (by rw [hx]; rfl)
          simpa [hx] using hfirst
        · simp [hx]
      · rintro a b rfl
        have hnext := h (x :: a) b rfl
        cases a <;> simpa using hnext

/-- No newline is bare when each stands behind a carriage return. -/
theorem bareNewlines_eq_zero_iff : bareNewlines t = 0 ↔
    ∀ a b, t = a ++ newline :: b → a.getLast? = some carriageReturn := by
  rw [bareNewlines, bareNewlinesAfter_eq_zero_iff]
  refine forall_congr' fun a => forall_congr' fun b => imp_congr_right fun _ => ?_
  cases a <;> simp

/-- A line break of two bytes does not go over the seam of two texts unless the first ends with half
of it. -/
theorem crlf_infix_append_iff (ha : carriageReturn ∉ a.getLast?) :
    crlf <:+: a ++ b ↔ crlf <:+: a ∨ crlf <:+: b := by
  rw [crlf, pair_infix_append_iff]
  constructor
  · rintro (h | h | ⟨hlast, -⟩)
    · exact Or.inl h
    · exact Or.inr h
    · exact absurd hlast ha
  · rintro (h | h)
    · exact Or.inl h
    · exact Or.inr (Or.inl h)

/-- Carriage returns are alone in one of two texts or in none. -/
theorem noLoneReturn_append_iff (ha : carriageReturn ∉ a.getLast?) :
    NoLoneReturn (a ++ b) ↔ NoLoneReturn a ∧ NoLoneReturn b := by
  constructor
  · intro h
    refine ⟨fun u v heq => ?_, fun u v heq => h (a ++ u) v (by rw [heq, List.append_assoc])⟩
    subst heq
    cases v with
    | nil => exact absurd List.getLast?_concat ha
    | cons x v => exact h u (x :: v ++ b) (by simp)
  · rintro ⟨hfront, hback⟩ u v heq
    rcases List.append_eq_append_iff.mp heq with ⟨w, rfl, hb⟩ | ⟨w, hw, hb⟩
    · exact hback w v hb
    · cases w with
      | nil => exact hback [] v hb.symm
      | cons x w =>
        obtain ⟨rfl, rfl⟩ := List.cons.inj hb
        have hhead := hfront u w hw
        rw [List.append_eq, List.head?_append, hhead]
        rfl

/-! ## Texts that suit a document -/

/-- A part of a line suits every document. -/
theorem suits_of_oneLine (h : OneLine t) : Suits doc t where
  last := fun hlast => h.1 (List.mem_of_getLast? hlast)
  newlines := fun _ => bareNewlines_eq_zero_iff.mpr fun u v heq => absurd (by simp [heq]) h.2
  plain := fun _ => h.1
  returns := fun u v heq => absurd (by simp [heq]) h.1

/-- Texts that suit a document do so together. -/
theorem Suits.append (ht : Suits doc t) (hu : Suits doc u) : Suits doc (t ++ u) where
  last := by
    rw [List.getLast?_append]
    intro hlast
    rcases Option.or_eq_some_iff.mp hlast with hlast | ⟨-, hlast⟩
    · exact hu.last hlast
    · exact ht.last hlast
  newlines := fun h => by rw [bareNewlines_append ht.last, ht.newlines h, hu.newlines h]
  plain := fun h => List.not_mem_append (ht.plain h) (hu.plain h)
  returns := (noLoneReturn_append_iff ht.last).mpr ⟨ht.returns, hu.returns⟩

/-- The line break of a document suits it. -/
theorem suits_lineBreak (doc : Text) : Suits doc (lineBreak doc) := by
  have hreturns : NoLoneReturn crlf := by
    intro a b heq
    cases a with
    | nil =>
      obtain ⟨-, rfl⟩ := List.cons.inj heq
      rfl
    | cons x a =>
      have hmem : carriageReturn ∈ [newline] := by simp [(List.cons.inj heq).2]
      exact absurd hmem (by decide)
  by_cases h : crlf <:+: doc
  · have hbreak : lineBreak doc = crlf := if_pos (hasInfix_iff.mpr h)
    rw [hbreak]
    exact ⟨by decide, fun _ => by decide, fun hnot => absurd h hnot, hreturns⟩
  · have hbreak : lineBreak doc = [newline] := if_neg (mt hasInfix_iff.mp h)
    rw [hbreak]
    refine ⟨by decide, fun hin => absurd hin h, fun _ => by decide, fun a b heq => ?_⟩
    have hmem : carriageReturn ∈ [newline] := by simp [heq]
    exact absurd hmem (by decide)

/-- Bytes of a kind without line breaks make part of a line. -/
theorem oneLine_of_forall {p : Byte → Bool} (h : ∀ b ∈ t, p b) (hreturn : p carriageReturn = false)
    (hnewline : p newline = false) : OneLine t := by
  constructor <;> intro hmem
  · rw [h _ hmem] at hreturn
    exact absurd hreturn (by decide)
  · rw [h _ hmem] at hnewline
    exact absurd hnewline (by decide)

/-- Blanks are part of a line. -/
theorem oneLine_of_isBlank (h : ∀ b ∈ t, isBlank b) : OneLine t :=
  oneLine_of_forall h (by decide) (by decide)

/-- Parts of a line are one together. -/
theorem OneLine.append (ht : OneLine t) (hu : OneLine u) : OneLine (t ++ u) :=
  ⟨List.not_mem_append ht.1 hu.1, List.not_mem_append ht.2 hu.2⟩

/-- A block with the line breaks of a document suits it. -/
theorem suits_block {indent : Text} (hindent : ∀ b ∈ indent, isBlank b) {content : List Text}
    (hcontent : ∀ line ∈ content, OneLine line) :
    Suits doc (block (lineBreak doc) indent content) := by
  induction content with
  | nil => exact suits_of_oneLine ⟨List.not_mem_nil, List.not_mem_nil⟩
  | cons line content ih =>
    obtain ⟨hline, hcontent⟩ := List.forall_mem_cons.mp hcontent
    rw [block_cons]
    have hindent : Suits doc indent := suits_of_oneLine (oneLine_of_isBlank hindent)
    exact (((suits_lineBreak doc).append hindent).append (suits_of_oneLine hline)).append
      (ih hcontent)

/-! ## Splices -/

/-- A document has its own line breaks. -/
theorem KeepsBreaks.refl (doc : Text) : KeepsBreaks doc doc :=
  ⟨Iff.rfl, fun _ => rfl, id, id⟩

/-- Line breaks may be kept in several steps. -/
theorem KeepsBreaks.trans (h : KeepsBreaks doc t) (h' : KeepsBreaks t u) : KeepsBreaks doc u where
  crlf_iff := h'.crlf_iff.trans h.crlf_iff
  newlines := fun hdoc => (h'.newlines (h.crlf_iff.mpr hdoc)).trans (h.newlines hdoc)
  plain := h'.plain ∘ h.plain
  returns := h'.returns ∘ h.returns

/-- A text with the line breaks of a document that uses the two-byte one does so too. -/
theorem KeepsBreaks.usesCrlf (h : KeepsBreaks doc t) (hdoc : UsesCrlf doc) : UsesCrlf t where
  occurs := h.crlf_iff.mpr hdoc.occurs
  newlines := by
    rw [← bareNewlines_eq_zero_iff, h.newlines hdoc.occurs]
    exact bareNewlines_eq_zero_iff.mpr hdoc.newlines
  returns := h.returns hdoc.returns

/-- A text that suits the document may be put anywhere but behind a carriage return. -/
theorem KeepsBreaks.insert (h : KeepsBreaks doc (a ++ b)) (ha : carriageReturn ∉ a.getLast?)
    (ht : Suits doc t) : KeepsBreaks doc (a ++ (t ++ b)) where
  crlf_iff := by
    have hbrings : crlf <:+: t → crlf <:+: doc := by
      intro hin
      by_contra hnot
      exact ht.plain hnot (hin.subset (List.mem_cons_self ..))
    have hkept := h.crlf_iff
    rw [crlf_infix_append_iff ha] at hkept
    rw [crlf_infix_append_iff ha, crlf_infix_append_iff ht.last]
    tauto
  newlines := by
    intro hdoc
    have hkept := h.newlines hdoc
    rw [bareNewlines_append ha] at hkept
    rw [bareNewlines_append ha, bareNewlines_append ht.last, ht.newlines hdoc, Nat.zero_add, hkept]
  plain := by
    intro hdoc
    have hnot : ¬ crlf <:+: doc := fun hin => hdoc (hin.subset (List.mem_cons_self ..))
    have hkept := h.plain hdoc
    simp only [List.mem_append, not_or] at hkept ⊢
    exact ⟨hkept.1, ht.plain hnot, hkept.2⟩
  returns := by
    intro hdoc
    obtain ⟨hfront, hback⟩ := (noLoneReturn_append_iff ha).mp (h.returns hdoc)
    rw [noLoneReturn_append_iff ha, noLoneReturn_append_iff ht.last]
    exact ⟨hfront, ht.returns, hback⟩

end Text

/-- An insertion behind a byte that is no carriage return, of a text that suits the document. -/
structure Insertion.Suits (doc : Text) (i : Insertion) : Prop where
  offset_le : i.offset ≤ doc.length
  behind : carriageReturn ∉ (doc.take i.offset).getLast?
  text : Text.Suits doc i.text

/-- Insertions that stand no earlier than an offset leave all in front of it alone. -/
theorem Insertion.take_foldr_into {n : Nat} {t : Text} {l : List Insertion}
    (h : ∀ i ∈ l, n ≤ i.offset) (hn : n ≤ t.length) : (l.foldr into t).take n = t.take n := by
  induction l with
  | nil => rfl
  | cons i l ih =>
    obtain ⟨hi, hl⟩ := List.forall_mem_cons.mp h
    have hlen := Insertion.length_le_length_foldr_into l t
    rw [List.foldr_cons, into, List.take_append_of_le_length (by rw [List.length_take]; omega),
      List.take_take, Nat.min_eq_left hi, ih hl]

namespace Text

/-- Insertions that suit a document leave it with the line breaks it had. The last insertion is made
first, so the text up to the offset of each is that of the document. -/
theorem keepsBreaks_splice {doc : Text} {l : List Insertion} (h : ∀ i ∈ l, i.Suits doc) :
    KeepsBreaks doc (splice doc l) := by
  have hmem (i : Insertion) : i ∈ Insertion.sort l ↔ i ∈ l := (Insertion.perm_sort l).mem_iff
  have hsorted := Insertion.pairwise_sort l
  have hsuits : ∀ i ∈ Insertion.sort l, i.Suits doc := fun i hi => h i ((hmem i).mp hi)
  rw [splice_eq_foldr fun i hi => (h i hi).offset_le]
  generalize Insertion.sort l = sorted at hsorted hsuits
  induction hsorted with
  | nil => exact KeepsBreaks.refl doc
  | @cons i more hi _ ih =>
    obtain ⟨hfirst, hmore⟩ := List.forall_mem_cons.mp hsuits
    have htake := Insertion.take_foldr_into (t := doc) hi hfirst.offset_le
    have hkept : KeepsBreaks doc ((more.foldr Insertion.into doc).take i.offset ++
        (more.foldr Insertion.into doc).drop i.offset) := by
      rw [List.take_append_drop]
      exact ih hmore
    rw [List.foldr_cons, Insertion.into]
    refine hkept.insert ?_ hfirst.text
    rw [htake]
    exact hfirst.behind

end Text

end FlutterScaffold
