import FlutterScaffold.Proofs.Text.Splices

/-!
# Insertions one by one

A splice can be made by single insertions, from the last listed to the first, when each is pushed
behind what was inserted in front of it (`splice_eq_foldr_pushAll`). Every byte of the document then
has a place in the result, which is told by what is inserted up to it (`place_pushAll`).
-/

namespace FlutterScaffold

namespace Insertion

/-- An insertion seen from a document in which others were made that were listed behind it. -/
def pushed (i : Insertion) (l : List Insertion) : Insertion :=
  { i with offset := i.offset + added (l.filter (·.offset < i.offset)) }

/-- Insertions as they are made one by one, from the last listed to the first. -/
def pushAll : List Insertion → List Insertion
  | [] => []
  | i :: l => i.pushed l :: pushAll l

/-- Where a byte stands once an insertion is made. -/
def shift (i : Insertion) (pos : Nat) : Nat := if pos < i.offset then pos else i.text.length + pos

/-- Where a byte stands once insertions are made, the last one first. -/
def place (l : List Insertion) (pos : Nat) : Nat := l.foldr shift pos

@[simp] theorem place_nil (pos : Nat) : place [] pos = pos := rfl

@[simp] theorem place_cons (i : Insertion) (l : List Insertion) (pos : Nat) :
    place (i :: l) pos = i.shift (place l pos) := rfl

theorem getElem?_into {i : Insertion} {t : Text} (h : i.offset ≤ t.length) (pos : Nat) :
    (i.into t)[i.shift pos]? = t[pos]? := by
  rw [into, shift]
  split
  · rename_i hlt
    rw [List.getElem?_append_left (by rw [List.length_take]; omega), List.getElem?_take_of_lt hlt]
  · rename_i hge
    have hlen : (t.take i.offset).length ≤ pos := by rw [List.length_take]; omega
    rw [Text.getElem?_insert hlen, List.take_append_drop]

private theorem added_filter_le {p q : Insertion → Bool} (h : ∀ i, p i → q i) (l : List Insertion) :
    added (l.filter p) ≤ added (l.filter q) := by
  induction l with
  | nil => exact le_rfl
  | cons i l ih =>
    rw [List.filter_cons, List.filter_cons]
    split
    · rename_i hp
      rw [if_pos (h i hp), added_cons, added_cons]
      omega
    · split
      · rw [added_cons]
        omega
      · exact ih

/-- A byte is moved by what is inserted in front of it. -/
theorem place_pushAll (l : List Insertion) (pos : Nat) :
    place (pushAll l) pos = pos + added (l.filter (·.offset ≤ pos)) := by
  induction l with
  | nil => rfl
  | cons i l ih =>
    rw [pushAll, place_cons, ih, shift, pushed, List.filter_cons]
    dsimp only
    by_cases hpos : i.offset ≤ pos
    · have hle : added (l.filter (·.offset < i.offset)) ≤ added (l.filter (·.offset ≤ pos)) :=
        added_filter_le (fun j hj => by simp only [decide_eq_true_eq] at hj ⊢; omega) l
      rw [if_neg (by omega), if_pos (by simpa using hpos), added_cons]
      omega
    · have hle : added (l.filter (·.offset ≤ pos)) ≤ added (l.filter (·.offset < i.offset)) :=
        added_filter_le (fun j hj => by simp only [decide_eq_true_eq] at hj ⊢; omega) l
      rw [if_pos (by omega), if_neg (by simpa using hpos)]

/-- The place behind a byte is told by the place of the byte. -/
theorem offset_pushed (i : Insertion) (l : List Insertion) {pos : Nat} (h : i.offset = pos + 1) :
    (i.pushed l).offset = place (pushAll l) pos + 1 := by
  rw [place_pushAll, pushed, h, Nat.add_right_comm]
  simp only [Nat.lt_succ_iff]

/-- Insertions that are listed by offset are made where they are listed. -/
theorem pushAll_eq_self {l : List Insertion} (h : l.Pairwise (·.offset ≤ ·.offset)) :
    pushAll l = l := by
  induction h with
  | nil => rfl
  | @cons i l hi _ ih =>
    have hnil : l.filter (·.offset < i.offset) = [] :=
      List.filter_eq_nil_iff.mpr fun j hj => by simpa using hi j hj
    rw [pushAll, ih, pushed, hnil, added_nil, Nat.add_zero]

end Insertion

namespace Text

/-- A splice makes its insertions one by one, from the last listed to the first. -/
theorem splice_eq_foldr_pushAll {doc : Text} {l : List Insertion}
    (h : ∀ i ∈ l, i.offset ≤ doc.length) :
    splice doc l = (Insertion.pushAll l).foldr Insertion.into doc := by
  induction l with
  | nil => rfl
  | cons i l ih =>
    obtain ⟨hi, hl⟩ := List.forall_mem_cons.mp h
    obtain ⟨a, b, rfl, hlen⟩ : ∃ a b, doc = a ++ b ∧ a.length = i.offset :=
      ⟨doc.take i.offset, doc.drop i.offset, (List.take_append_drop _ _).symm, by
        rw [List.length_take, Nat.min_eq_left hi]⟩
    have hfirst := splice_cons_append a b i.text l
    have heq : i = { offset := a.length, text := i.text } := by rw [hlen]
    rw [← heq] at hfirst
    have hpushed : (i.pushed l).offset = (splice a (l.filter (·.offset < a.length))).length := by
      rw [length_splice, hlen]
      rfl
    rw [Insertion.pushAll, List.foldr_cons, ← ih hl, hfirst, splice_append, Insertion.into, hpushed,
      List.take_left, List.drop_left]
    rfl

end Text

end FlutterScaffold
