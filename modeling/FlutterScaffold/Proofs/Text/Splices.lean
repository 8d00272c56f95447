import Mathlib.Tactic
import FlutterScaffold.Text.Splice

/-!
# Splices in order

Insertions that are listed by offset are spliced from the front: the first goes to its place, and
the others are spliced into what is left of the document, seen from there. So a splice whose
offsets are told by the pieces of a document is the concatenation of pieces and insertions. Made one
by one, from the last offset to the first, the insertions give the same text (`splice_eq_foldr`).
-/

namespace FlutterScaffold

namespace Insertion

/-- The same insertion in a document that starts `n` bytes later. -/
def ahead (n : Nat) (i : Insertion) : Insertion := { i with offset := n + i.offset }

/-- The same insertion in a document without its first `n` bytes. -/
def behind (n : Nat) (i : Insertion) : Insertion := { i with offset := i.offset - n }

/-- Insertions that are moved by nothing stay. -/
theorem map_ahead_zero (l : List Insertion) : l.map (ahead 0) = l := by
  refine (List.map_congr_left fun i _ => ?_).trans (List.map_id l)
  simp [ahead]

/-- Insertions that are moved back and forth stay. -/
theorem map_behind_ahead {n : Nat} {l : List Insertion} (h : ∀ i ∈ l, n ≤ i.offset) :
    (l.map (behind n)).map (ahead n) = l := by
  rw [List.map_map]
  refine (List.map_congr_left fun i hi => ?_).trans (List.map_id l)
  simp [ahead, behind, Nat.add_sub_cancel' (h i hi)]

@[simp] theorem offset_ahead (n : Nat) (i : Insertion) : (i.ahead n).offset = n + i.offset := rfl

@[simp] theorem text_ahead (n : Nat) (i : Insertion) : (i.ahead n).text = i.text := rfl

/-- An insertion finds its place in a list in the same way when all are moved. -/
theorem orderedInsert_ahead (n : Nat) (i : Insertion) (l : List Insertion) :
    orderedInsert (i.ahead n) (l.map (ahead n)) = (orderedInsert i l).map (ahead n) := by
  induction l with
  | nil => rfl
  | cons j more ih =>
    simp only [List.map_cons, orderedInsert, offset_ahead, Nat.add_le_add_iff_left, ih]
    split <;> rfl

/-- Sorting commutes with a move of all offsets. -/
theorem sort_ahead (n : Nat) (l : List Insertion) :
    sort (l.map (ahead n)) = (sort l).map (ahead n) := by
  induction l with
  | nil => rfl
  | cons i more ih =>
    have hs (m : List Insertion) : sort (i :: m) = orderedInsert i (sort m) := rfl
    have hs' : sort (i.ahead n :: more.map (ahead n)) =
        orderedInsert (i.ahead n) (sort (more.map (ahead n))) := rfl
    rw [List.map_cons, hs', hs, ih, orderedInsert_ahead]

/-- An insertion in front of all others stays the first. -/
theorem sort_cons {i : Insertion} {l : List Insertion} (h : ∀ j ∈ l, i.offset ≤ j.offset) :
    sort (i :: l) = i :: sort l := by
  have hs : sort (i :: l) = orderedInsert i (sort l) := rfl
  rw [hs]
  cases hl : sort l with
  | nil => rfl
  | cons j more =>
    have hj : j ∈ l := (perm_sort l).mem_iff.mp (by simp [hl])
    rw [orderedInsert, if_pos (h j hj)]

/-! ## Sorted insertions -/

/-- An insertion is put into an ordered list in order. -/
theorem pairwise_orderedInsert {i : Insertion} {l : List Insertion}
    (h : l.Pairwise (·.offset ≤ ·.offset)) :
    (orderedInsert i l).Pairwise (·.offset ≤ ·.offset) := by
  induction l with
  | nil => simp [orderedInsert]
  | cons j more ih =>
    obtain ⟨hj, hmore⟩ := List.pairwise_cons.mp h
    rw [orderedInsert]
    split
    · rename_i hij
      refine List.pairwise_cons.mpr ⟨fun k hk => ?_, h⟩
      rcases List.mem_cons.mp hk with rfl | hk
      · exact hij
      · exact hij.trans (hj k hk)
    · rename_i hij
      refine List.pairwise_cons.mpr ⟨fun k hk => ?_, ih hmore⟩
      rcases List.mem_cons.mp ((perm_orderedInsert i more).mem_iff.mp hk) with rfl | hk
      · omega
      · exact hj k hk

/-- Sorted insertions are in order. -/
theorem pairwise_sort (l : List Insertion) : (sort l).Pairwise (·.offset ≤ ·.offset) := by
  induction l with
  | nil => exact List.Pairwise.nil
  | cons i more ih => exact pairwise_orderedInsert ih

/-- Insertions in order are sorted as they are. -/
theorem sort_eq_self {l : List Insertion} (h : l.Pairwise (·.offset ≤ ·.offset)) : sort l = l := by
  induction h with
  | nil => rfl
  | cons hi _ ih => rw [sort_cons hi, ih]

/-- An insertion is put among those of a kind like among all. -/
private theorem filter_orderedInsert {i : Insertion} {l : List Insertion} {p : Insertion → Bool}
    (h : l.Pairwise (·.offset ≤ ·.offset)) : (orderedInsert i l).filter p =
      if p i then orderedInsert i (l.filter p) else l.filter p := by
  induction l with
  | nil => cases hp : p i <;> simp [orderedInsert, hp]
  | cons j more ih =>
    obtain ⟨hj, hmore⟩ := List.pairwise_cons.mp h
    have ih := ih hmore
    rw [orderedInsert]
    split
    · rename_i hij
      have hfirst : ∀ k ∈ (j :: more).filter p, i.offset ≤ k.offset := by
        intro k hk
        rcases List.mem_cons.mp (List.mem_of_mem_filter hk) with rfl | hk
        · exact hij
        · exact hij.trans (hj k hk)
      rw [List.filter_cons]
      congr 1
      cases hl : (j :: more).filter p with
      | nil => rfl
      | cons k rest => rw [orderedInsert, if_pos (hfirst k (by simp [hl]))]
    · rename_i hij
      cases hpj : p j <;> cases hpi : p i <;> simp [hpj, hpi, orderedInsert, hij, ih]

/-- Sorting commutes with a choice of insertions. -/
theorem sort_filter (p : Insertion → Bool) (l : List Insertion) :
    sort (l.filter p) = (sort l).filter p := by
  induction l with
  | nil => rfl
  | cons i more ih =>
    have hs : sort (i :: more) = orderedInsert i (sort more) := rfl
    rw [hs, filter_orderedInsert (pairwise_sort more), ← ih, List.filter_cons]
    split <;> rfl

/-- Sorted insertions are those in front of an offset, followed by the others. -/
theorem sort_eq_append (l : List Insertion) (n : Nat) :
    sort l = sort (l.filter (·.offset < n)) ++ sort (l.filter (n ≤ ·.offset)) := by
  have hsorted := pairwise_sort l
  rw [sort_filter, sort_filter]
  generalize sort l = s at hsorted ⊢
  induction hsorted with
  | nil => rfl
  | @cons i s hi _ ih =>
    by_cases hlt : i.offset < n
    · have hnot : ¬ n ≤ i.offset := by omega
      simp only [List.filter_cons, hlt, hnot, decide_true, decide_false, if_true,
        Bool.false_eq_true, if_false, List.cons_append]
      rw [← ih]
    · have hle : ∀ j ∈ i :: s, n ≤ j.offset := by
        intro j hj
        rcases List.mem_cons.mp hj with rfl | hj
        · omega
        · have := hi j hj
          omega
      have hnone : (i :: s).filter (·.offset < n) = [] := by
        refine List.filter_eq_nil_iff.mpr fun j hj => ?_
        simpa using hle j hj
      have hall : (i :: s).filter (n ≤ ·.offset) = i :: s := by
        refine List.filter_eq_self.mpr fun j hj => ?_
        simpa using hle j hj
      rw [hnone, hall, List.nil_append]

/-! ## Single insertions -/

/-- A text with an insertion made. -/
def into (i : Insertion) (t : Text) : Text := t.take i.offset ++ (i.text ++ t.drop i.offset)

/-- An insertion keeps the text. -/
theorem sublist_into (i : Insertion) (t : Text) : t.Sublist (i.into t) := by
  have h := (List.Sublist.refl (t.take i.offset)).append
    (List.sublist_append_right i.text (t.drop i.offset))
  rwa [List.take_append_drop] at h

/-- An insertion adds its length. -/
theorem length_into (i : Insertion) (t : Text) : (i.into t).length = t.length + i.text.length := by
  simp only [into, List.length_append, List.length_take, List.length_drop]
  omega

/-- Insertions do not make a text shorter. -/
theorem length_le_length_foldr_into (l : List Insertion) (t : Text) :
    t.length ≤ (l.foldr into t).length := by
  induction l with
  | nil => exact le_rfl
  | cons i l ih =>
    rw [List.foldr_cons, length_into]
    omega

end Insertion

namespace Text

open Insertion (ahead sort)

/-- Insertions that are moved with the start are spliced in alike. -/
theorem spliceFrom_ahead (n start : Nat) (rest : Text) (l : List Insertion) :
    spliceFrom (n + start) rest (l.map (ahead n)) = spliceFrom start rest l := by
  induction l generalizing start rest with
  | nil => rfl
  | cons i more ih =>
    simp only [List.map_cons, spliceFrom, Insertion.offset_ahead, Insertion.text_ahead,
      Nat.add_sub_add_left, ih]

/-- Insertions behind a piece of the document leave the piece alone. -/
theorem splice_append_ahead (a b : Text) (l : List Insertion) :
    splice (a ++ b) (l.map (ahead a.length)) = a ++ splice b l := by
  rw [splice, splice, Insertion.sort_ahead]
  cases sort l with
  | nil => rfl
  | cons i more =>
    have hmore := spliceFrom_ahead a.length i.offset (b.drop i.offset) more
    simp only [List.map_cons, spliceFrom, Insertion.offset_ahead, Insertion.text_ahead,
      Nat.sub_zero, List.take_length_add_append, List.drop_length_add_append, hmore,
      List.append_assoc]

/-- The first of several insertions goes to its place, and the others are made behind it. -/
theorem splice_cons_ahead (a b t : Text) (l : List Insertion) :
    splice (a ++ b) ({ offset := a.length, text := t } :: l.map (ahead a.length)) =
      a ++ (t ++ splice b l) := by
  have hfirst : ∀ j ∈ l.map (ahead a.length), a.length ≤ j.offset := by
    intro j hj
    obtain ⟨i, -, rfl⟩ := List.mem_map.mp hj
    exact Nat.le_add_right _ _
  have hrest := spliceFrom_ahead a.length 0 b (sort l)
  rw [splice, Insertion.sort_cons hfirst, spliceFrom, Insertion.sort_ahead]
  simp only [Nat.sub_zero, List.take_left, List.drop_left, List.append_assoc]
  rw [Nat.add_zero] at hrest
  rw [hrest, splice]

/-- One insertion at the end of a piece. -/
theorem splice_singleton (a b t : Text) :
    splice (a ++ b) [{ offset := a.length, text := t }] = a ++ (t ++ b) := by
  simpa using splice_cons_ahead a b t []

/-- An insertion in front of all others may be made before them. -/
theorem splice_cons {a b t : Text} {l : List Insertion} (h : ∀ j ∈ l, a.length ≤ j.offset) :
    splice (a ++ b) ({ offset := a.length, text := t } :: l) =
      splice (a ++ (t ++ b)) (l.map (ahead t.length)) := by
  have hl : ∃ m : List Insertion, l = m.map (ahead a.length) :=
    ⟨l.map (Insertion.behind a.length), (Insertion.map_behind_ahead h).symm⟩
  obtain ⟨m, rfl⟩ := hl
  have hahead : (m.map (ahead a.length)).map (ahead t.length) = m.map (ahead (a ++ t).length) := by
    rw [List.map_map]
    refine List.map_congr_left fun j _ => ?_
    rw [Function.comp_apply, ahead, ahead, ahead, List.length_append, ← Nat.add_assoc,
      Nat.add_comm t.length]
  rw [splice_cons_ahead, hahead, ← List.append_assoc a t b, splice_append_ahead, List.append_assoc]

/-! ## Splices of two pieces -/

/-- Sorted insertions that stand no later than an offset go into what is in front of it, and those
that stand no earlier go into what follows. -/
theorem spliceFrom_append {start n : Nat} (rest : Text) {before behind : List Insertion}
    (hn : start ≤ n) (hs : before.Pairwise (·.offset ≤ ·.offset))
    (hbefore : ∀ i ∈ before, start ≤ i.offset ∧ i.offset ≤ n)
    (hbehind : ∀ i ∈ behind, n ≤ i.offset) :
    spliceFrom start rest (before ++ behind) =
      spliceFrom start (rest.take (n - start)) before ++
        spliceFrom n (rest.drop (n - start)) behind := by
  induction before generalizing start rest with
  | nil =>
    cases behind with
    | nil => simp [spliceFrom]
    | cons j behind =>
      obtain ⟨hj, -⟩ := List.forall_mem_cons.mp hbehind
      have hsum : j.offset - start = (n - start) + (j.offset - n) := by omega
      simp only [List.nil_append, spliceFrom, hsum, List.take_add, List.drop_drop,
        List.append_assoc]
  | cons i before ih =>
    obtain ⟨hi, hs⟩ := List.pairwise_cons.mp hs
    obtain ⟨⟨hstart, hle⟩, hbefore⟩ := List.forall_mem_cons.mp hbefore
    have hrest := ih (rest.drop (i.offset - start)) hle hs fun j hj => ⟨hi j hj, (hbefore j hj).2⟩
    have hsum : i.offset - start + (n - i.offset) = n - start := by omega
    rw [List.drop_drop, hsum] at hrest
    rw [List.cons_append, spliceFrom, spliceFrom, hrest, List.take_take, List.drop_take,
      Nat.min_eq_left (by omega)]
    have hsub : n - start - (i.offset - start) = n - i.offset := by omega
    simp only [hsub, List.append_assoc]

/-- Insertions behind an offset are made in what follows it, seen from there. -/
theorem spliceFrom_sort {n : Nat} (rest : Text) {l : List Insertion} (h : ∀ i ∈ l, n ≤ i.offset) :
    spliceFrom n rest (sort l) = splice rest (l.map (Insertion.behind n)) := by
  have hahead := Insertion.sort_ahead n (l.map (Insertion.behind n))
  rw [Insertion.map_behind_ahead h] at hahead
  have hmoved := spliceFrom_ahead n 0 rest (sort (l.map (Insertion.behind n)))
  rwa [Nat.add_zero, ← hahead] at hmoved

/-- Each of two pieces of a document gets the insertions that fall into it; those at the seam go to
the second piece. -/
theorem splice_append (a b : Text) (l : List Insertion) : splice (a ++ b) l =
    splice a (l.filter (·.offset < a.length)) ++
      splice b ((l.filter (a.length ≤ ·.offset)).map (Insertion.behind a.length)) := by
  have hfront : ∀ i ∈ sort (l.filter (·.offset < a.length)), 0 ≤ i.offset ∧
    i.offset ≤ a.length := by
    intro i hi
    have hlt := List.of_mem_filter ((Insertion.perm_sort _).mem_iff.mp hi)
    simp only [decide_eq_true_eq] at hlt
    omega
  have hback : ∀ i ∈ l.filter (a.length ≤ ·.offset), a.length ≤ i.offset := by
    intro i hi
    simpa using List.of_mem_filter hi
  have hback' : ∀ i ∈ sort (l.filter (a.length ≤ ·.offset)), a.length ≤ i.offset :=
    fun i hi => hback i ((Insertion.perm_sort _).mem_iff.mp hi)
  rw [splice, Insertion.sort_eq_append l a.length, spliceFrom_append _ (Nat.zero_le _)
    (Insertion.pairwise_sort _) hfront hback', Nat.sub_zero, List.take_left, List.drop_left,
    spliceFrom_sort b hback, ← splice]

/-- The insertion that is listed first goes in front of all others at its offset. -/
theorem splice_cons_append (a b t : Text) (l : List Insertion) :
    splice (a ++ b) ({ offset := a.length, text := t } :: l) =
      splice a (l.filter (·.offset < a.length)) ++
        (t ++ splice b ((l.filter (a.length ≤ ·.offset)).map (Insertion.behind a.length))) := by
  have hfirst := splice_cons_ahead [] b t
    ((l.filter (a.length ≤ ·.offset)).map (Insertion.behind a.length))
  rw [List.length_nil, Insertion.map_ahead_zero] at hfirst
  rw [splice_append, List.filter_cons_of_neg (by simp), List.filter_cons_of_pos (by simp),
    List.map_cons, Insertion.behind, Nat.sub_self]
  exact congrArg _ hfirst

/-- A piece keeps its last byte when nothing is inserted behind it. -/
theorem exists_splice_concat {a : Text} {x : Byte} {l : List Insertion}
    (h : ∀ i ∈ l, i.offset ≤ a.length) : ∃ u, splice (a ++ [x]) l = u ++ [x] := by
  have hone (m : List Insertion) (hm : ∀ i ∈ m, i.offset = 0) : ∃ u, splice [x] m = u ++ [x] := by
    induction m with
    | nil => exact ⟨[], rfl⟩
    | cons i m ih =>
      obtain ⟨hi, hm⟩ := List.forall_mem_cons.mp hm
      obtain ⟨u, hu⟩ := ih hm
      have hcons := splice_cons_ahead [] [x] i.text m
      rw [List.length_nil, Insertion.map_ahead_zero, hu] at hcons
      refine ⟨i.text ++ u, ?_⟩
      have heq : i = { offset := 0, text := i.text } := by rw [← hi]
      rw [heq, List.append_assoc]
      exact hcons
  obtain ⟨u, hu⟩ := hone ((l.filter (a.length ≤ ·.offset)).map (Insertion.behind a.length)) (by
    intro i hi
    obtain ⟨j, hj, rfl⟩ := List.mem_map.mp hi
    exact Nat.sub_eq_zero_of_le (h j (List.mem_of_mem_filter hj)))
  rw [splice_append, hu, ← List.append_assoc]
  exact ⟨_, rfl⟩

/-! ## One insertion after the other -/

/-- Insertions behind a text are spliced in behind it. -/
private theorem append_spliceFrom {a b : Text} {l : List Insertion}
    (hs : l.Pairwise (·.offset ≤ ·.offset)) (hlo : ∀ i ∈ l, a.length ≤ i.offset)
    (hhi : ∀ i ∈ l, i.offset ≤ (a ++ b).length) :
    a ++ spliceFrom a.length b l = l.foldr Insertion.into (a ++ b) := by
  induction l generalizing a b with
  | nil => rfl
  | cons i more ih =>
    obtain ⟨hi, hmore⟩ := List.pairwise_cons.mp hs
    obtain ⟨hlo, -⟩ := List.forall_mem_cons.mp hlo
    obtain ⟨hhi, hhimore⟩ := List.forall_mem_cons.mp hhi
    rw [List.length_append] at hhi
    obtain ⟨c, d, rfl, hc⟩ : ∃ c d, b = c ++ d ∧ c.length = i.offset - a.length :=
      ⟨b.take (i.offset - a.length), b.drop (i.offset - a.length), (List.take_append_drop _ _).symm,
        by rw [List.length_take]; omega⟩
    have hlen : (a ++ c).length = i.offset := by
      rw [List.length_append]
      omega
    have hrest := ih (a := a ++ c) (b := d) hmore (fun j hj => hlen.le.trans (hi j hj))
      (by simpa [List.append_assoc] using hhimore)
    rw [spliceFrom, ← hc, List.take_left, List.drop_left, ← hlen, List.foldr_cons,
      ← List.append_assoc a c d, ← hrest, Insertion.into, ← hlen, List.take_left, List.drop_left]
    simp only [List.append_assoc]

/-- A splice makes its insertions one by one, from the last offset to the first. -/
theorem splice_eq_foldr {doc : Text} {l : List Insertion} (h : ∀ i ∈ l, i.offset ≤ doc.length) :
    splice doc l = (Insertion.sort l).foldr Insertion.into doc := by
  have hmem (i : Insertion) : i ∈ Insertion.sort l ↔ i ∈ l := (Insertion.perm_sort l).mem_iff
  have hsplice := append_spliceFrom (a := []) (b := doc) (Insertion.pairwise_sort l) (by simp)
    (by simpa [hmem] using h)
  simpa [splice] using hsplice

/-! ## Text behind an insertion -/

variable {a i b : Text}

/-- Behind an insertion a text goes on as before. -/
theorem drop_insert {o : Nat} (ho : a.length ≤ o) :
    (a ++ (i ++ b)).drop (i.length + o) = (a ++ b).drop o := by
  obtain ⟨k, rfl⟩ := Nat.exists_eq_add_of_le ho
  have hlen : i.length + (a.length + k) = (a ++ i).length + k := by
    rw [List.length_append]
    omega
  rw [← List.append_assoc, hlen, List.drop_length_add_append, List.drop_length_add_append]

/-- Behind an insertion the bytes are those from before. -/
theorem getElem?_insert {o : Nat} (ho : a.length ≤ o) :
    (a ++ (i ++ b))[i.length + o]? = (a ++ b)[o]? := by
  rw [← List.head?_drop, drop_insert ho, List.head?_drop]

/-- Behind an insertion the slices are those from before. -/
theorem between_insert {start : Nat} (h : a.length ≤ start) (stop : Nat) :
    ((a ++ (i ++ b)).take (i.length + stop)).drop (i.length + start) =
      ((a ++ b).take stop).drop start := by
  rw [List.drop_take, List.drop_take, drop_insert h, Nat.add_sub_add_left]

end Text

end FlutterScaffold
