import FlutterScaffold.Proofs.Text.Splices

/-!
# Splices in stable order

A splice takes its insertions in the stable order of their offsets, the one that the sort of the
standard library gives (`sort_eq_mergeSort`), and copies the document once. The same text comes out
when the insertions are made one by one in that order, from the last to the first, each at its
offset or at the end of the document where the offset lies past it. So texts that share an offset
follow one another as they are listed, and where no two insertions share one, the order in which
they are listed does not show (`splice_spec`).
-/

namespace FlutterScaffold

namespace Insertion

/-- Whether an insertion stands no later than another one. -/
def notAfter (i j : Insertion) : Bool := i.offset ≤ j.offset

/-- The insertion as a document of `n` bytes takes it: at the end when its offset lies past it. -/
def clamp (n : Nat) (i : Insertion) : Insertion := { i with offset := min i.offset n }

@[simp] theorem offset_clamp (n : Nat) (i : Insertion) : (i.clamp n).offset = min i.offset n := rfl

@[simp] theorem text_clamp (n : Nat) (i : Insertion) : (i.clamp n).text = i.text := rfl

/-! ## The stable order -/

/-- An insertion goes behind those that stand earlier and in front of all others. -/
theorem orderedInsert_append {i : Insertion} {before behind : List Insertion}
    (hbefore : ∀ j ∈ before, j.offset < i.offset) (hbehind : ∀ j ∈ behind, i.offset ≤ j.offset) :
    orderedInsert i (before ++ behind) = before ++ i :: behind := by
  induction before with
  | nil =>
    cases behind with
    | nil => rfl
    | cons j behind =>
      have hj := hbehind j (List.mem_cons_self ..)
      rw [List.nil_append, List.nil_append, orderedInsert, if_pos hj]
  | cons j before ih =>
    obtain ⟨hj, hbefore⟩ := List.forall_mem_cons.mp hbefore
    rw [List.cons_append, List.cons_append, orderedInsert, if_neg (by omega), ih hbefore]

/-- Insertions are sorted as the stable sort of the standard library sorts them. -/
theorem sort_eq_mergeSort (l : List Insertion) : sort l = l.mergeSort notAfter := by
  have htrans (i j k : Insertion) (hij : notAfter i j) (hjk : notAfter j k) : notAfter i k := by
    simp only [notAfter, decide_eq_true_eq] at hij hjk ⊢
    omega
  have htotal (i j : Insertion) : notAfter i j || notAfter j i := by
    simp only [notAfter, Bool.or_eq_true, decide_eq_true_eq]
    omega
  induction l with
  | nil => rw [List.mergeSort_nil]; rfl
  | cons i l ih =>
    obtain ⟨before, behind, hsorted, hrest, hbefore⟩ := List.mergeSort_cons htrans htotal i l
    have hpairwise : (before ++ i :: behind).Pairwise (fun j k => notAfter j k) := by
      rw [← hsorted]
      exact List.pairwise_mergeSort htrans htotal _
    have hearlier : ∀ j ∈ before, j.offset < i.offset := by
      intro j hj
      simpa [notAfter] using hbefore j hj
    have hlater : ∀ j ∈ behind, i.offset ≤ j.offset := by
      intro j hj
      have hi := (List.pairwise_append.mp hpairwise).2.1
      simpa [notAfter] using (List.pairwise_cons.mp hi).1 j hj
    calc sort (i :: l) = orderedInsert i (sort l) := rfl
      _ = orderedInsert i (before ++ behind) := by rw [ih, hrest]
      _ = before ++ i :: behind := orderedInsert_append hearlier hlater
      _ = (i :: l).mergeSort notAfter := hsorted.symm

/-- Insertions at different offsets have one order. -/
theorem sort_eq_of_perm {l l' : List Insertion} (h : l'.Perm l)
    (hnodup : (l.map (·.offset)).Nodup) : sort l' = sort l := by
  have hsorts : (sort l').Perm (sort l) := (perm_sort l').trans (h.trans (perm_sort l).symm)
  refine hsorts.eq_of_pairwise ?_ (pairwise_sort l') (pairwise_sort l)
  intro i j hi hj hij hji
  have hi : i ∈ l := h.mem_iff.mp ((perm_sort l').mem_iff.mp hi)
  have hj : j ∈ l := (perm_sort l).mem_iff.mp hj
  exact List.inj_on_of_nodup_map hnodup hi hj (le_antisymm hij hji)

/-- Insertions that share an offset are sorted already. -/
theorem sort_eq_self_of_offset_eq {n : Nat} {l : List Insertion} (h : ∀ i ∈ l, i.offset = n) :
    sort l = l := by
  refine sort_eq_self (List.pairwise_iff_forall_sublist.mpr ?_)
  intro i j hsub
  have hi := h i (hsub.subset (by simp))
  have hj := h j (hsub.subset (by simp))
  omega

/-- The order is that of the insertions before an offset, those at it as they are listed, and those
behind it. -/
theorem sort_eq_append_append (l : List Insertion) (n : Nat) :
    sort l = sort (l.filter (·.offset < n)) ++
      (l.filter (·.offset = n) ++ sort (l.filter (n < ·.offset))) := by
  have hat : (l.filter (n ≤ ·.offset)).filter (·.offset < n + 1) = l.filter (·.offset = n) := by
    rw [List.filter_filter]
    refine List.filter_congr fun i _ => ?_
    rw [Bool.eq_iff_iff]
    simp only [Bool.and_eq_true, decide_eq_true_eq]
    omega
  have hbehind : (l.filter (n ≤ ·.offset)).filter (n + 1 ≤ ·.offset) =
      l.filter (n < ·.offset) := by
    rw [List.filter_filter]
    refine List.filter_congr fun i _ => ?_
    rw [Bool.eq_iff_iff]
    simp only [Bool.and_eq_true, decide_eq_true_eq]
    omega
  have hself : sort (l.filter (·.offset = n)) = l.filter (·.offset = n) :=
    sort_eq_self_of_offset_eq fun i hi => by simpa using List.of_mem_filter hi
  rw [sort_eq_append l n, sort_eq_append (l.filter (n ≤ ·.offset)) (n + 1), hat, hbehind, hself]

/-! ## Offsets past the end -/

theorem pairwise_map_clamp {l : List Insertion} (n : Nat)
    (h : l.Pairwise (·.offset ≤ ·.offset)) :
    (l.map (clamp n)).Pairwise (·.offset ≤ ·.offset) := by
  refine h.map _ ?_
  intro i j hij
  simp only [offset_clamp]
  omega

end Insertion

namespace Text

open Insertion (sort clamp notAfter behind)

/-- Where nothing is left of a document, its insertions follow one another. -/
theorem spliceFrom_nil (start : Nat) (l : List Insertion) :
    spliceFrom start [] l = l.flatMap (·.text) := by
  induction l generalizing start with
  | nil => rfl
  | cons i l ih => rw [spliceFrom, List.take_nil, List.drop_nil, ih, List.flatMap_cons,
      List.nil_append]

/-- An offset past the end means the end. -/
theorem spliceFrom_map_clamp {start : Nat} (rest : Text) {l : List Insertion}
    (hs : l.Pairwise (·.offset ≤ ·.offset)) (hstart : ∀ i ∈ l, start ≤ i.offset) :
    spliceFrom start rest (l.map (clamp (start + rest.length))) = spliceFrom start rest l := by
  induction l generalizing start rest with
  | nil => rfl
  | cons i l ih =>
    obtain ⟨hi, hs⟩ := List.pairwise_cons.mp hs
    obtain ⟨hfirst, -⟩ := List.forall_mem_cons.mp hstart
    simp only [List.map_cons, spliceFrom, Insertion.offset_clamp, Insertion.text_clamp]
    by_cases hin : i.offset ≤ start + rest.length
    · have hlength : i.offset + (rest.drop (i.offset - start)).length = start + rest.length := by
        rw [List.length_drop]
        omega
      have hrest := ih (rest.drop (i.offset - start)) hs hi
      rw [hlength] at hrest
      rw [Nat.min_eq_left hin, hrest]
    · have hpast : rest.length ≤ i.offset - start := by omega
      have hend : rest.length ≤ min i.offset (start + rest.length) - start := by omega
      rw [List.take_of_length_le hpast, List.take_of_length_le hend, List.drop_eq_nil_of_le hpast,
        List.drop_eq_nil_of_le hend, spliceFrom_nil, spliceFrom_nil, List.flatMap_map]
      rfl

/-- Whatever the offsets are, a splice makes its insertions one by one, from the last to the first,
each at its offset or at the end of the document. -/
theorem splice_eq_foldr_clamp (doc : Text) (l : List Insertion) :
    splice doc l = ((sort l).map (clamp doc.length)).foldr Insertion.into doc := by
  have hsorted := Insertion.pairwise_map_clamp doc.length (Insertion.pairwise_sort l)
  have hclamp := spliceFrom_map_clamp doc (Insertion.pairwise_sort l) fun i _ =>
    Nat.zero_le i.offset
  have hle : ∀ i ∈ (sort l).map (clamp doc.length), i.offset ≤ doc.length := by
    intro i hi
    obtain ⟨j, -, rfl⟩ := List.mem_map.mp hi
    exact Nat.min_le_right _ _
  have hfoldr := splice_eq_foldr hle
  rw [Insertion.sort_eq_self hsorted] at hfoldr
  rw [Nat.zero_add] at hclamp
  rw [← hfoldr, splice, splice, Insertion.sort_eq_self hsorted, hclamp]

/-- Texts that share an offset follow one another as they are listed, behind everything that stands
earlier and in front of everything that stands later. The sorted list falls into three stretches of
offsets, and the middle one keeps its order. -/
theorem splice_eq_append_append (doc : Text) (l : List Insertion) (n : Nat) :
    splice doc l = splice (doc.take n) (l.filter (·.offset < n)) ++
      ((l.filter (·.offset = n)).flatMap (·.text) ++
        splice (doc.drop n) ((l.filter (n < ·.offset)).map (behind n))) := by
  have hmem {p : Insertion → Bool} {i : Insertion} (hi : i ∈ sort (l.filter p)) : p i :=
    List.of_mem_filter ((Insertion.perm_sort _).mem_iff.mp hi)
  have hfront : ∀ i ∈ sort (l.filter (·.offset < n)), 0 ≤ i.offset ∧ i.offset ≤ n := by
    intro i hi
    have hlt := hmem hi
    simp only [decide_eq_true_eq] at hlt
    omega
  have hat : ∀ i ∈ l.filter (·.offset = n), n ≤ i.offset ∧ i.offset ≤ n := by
    intro i hi
    have heq := List.of_mem_filter hi
    simp only [decide_eq_true_eq] at heq
    omega
  have hback : ∀ i ∈ l.filter (n < ·.offset), n ≤ i.offset := by
    intro i hi
    have hlt := List.of_mem_filter hi
    simp only [decide_eq_true_eq] at hlt
    omega
  have hback' : ∀ i ∈ sort (l.filter (n < ·.offset)), n ≤ i.offset :=
    fun i hi => hback i ((Insertion.perm_sort _).mem_iff.mp hi)
  have hlater : ∀ i ∈ l.filter (·.offset = n) ++ sort (l.filter (n < ·.offset)), n ≤ i.offset :=
    List.forall_mem_append.mpr ⟨fun i hi => (hat i hi).1, hback'⟩
  have hlisted : (l.filter (·.offset = n)).Pairwise (·.offset ≤ ·.offset) := by
    rw [← Insertion.sort_eq_self_of_offset_eq (n := n) (l := l.filter (·.offset = n))
      fun i hi => le_antisymm (hat i hi).2 (hat i hi).1]
    exact Insertion.pairwise_sort _
  rw [splice, Insertion.sort_eq_append_append l n,
    spliceFrom_append doc (Nat.zero_le n) (Insertion.pairwise_sort _) hfront hlater,
    spliceFrom_append _ le_rfl hlisted hat hback', Nat.sub_zero, Nat.sub_self, List.take_zero,
    List.drop_zero, spliceFrom_nil, spliceFrom_sort _ hback, ← splice]

/-- A splice is what single insertions make of a document when they are made in the stable order of
their offsets, from the last to the first, each at its offset or at the end of the document. So
texts that share an offset follow one another as they are listed, and where no two insertions share
one, any other order of the list gives the same text. -/
theorem splice_spec (doc : Text) (l : List Insertion) :
    splice doc l = ((l.mergeSort notAfter).map (clamp doc.length)).foldr Insertion.into doc ∧
      (∀ n, splice doc l = splice (doc.take n) (l.filter (·.offset < n)) ++
        ((l.filter (·.offset = n)).flatMap (·.text) ++
          splice (doc.drop n) ((l.filter (n < ·.offset)).map (behind n)))) ∧
      ∀ l', l'.Perm l → (l.map (·.offset)).Nodup → splice doc l' = splice doc l := by
  refine ⟨?_, splice_eq_append_append doc l, ?_⟩
  · rw [← Insertion.sort_eq_mergeSort]
    exact splice_eq_foldr_clamp doc l
  · intro l' hperm hnodup
    rw [splice, splice, Insertion.sort_eq_of_perm hperm hnodup]

/-- Two insertions past the end keep the order of their offsets, however they are listed. -/
theorem splice_spec_past_end :
    let doc := lit "abc"
    let l : List Insertion := [⟨9, lit "z"⟩, ⟨1, lit "x"⟩, ⟨7, lit "w"⟩]
    l.reverse.Perm l ∧ (l.map (·.offset)).Nodup ∧ splice doc l = lit "axbcwz" ∧
      splice doc l.reverse = splice doc l := by
  intro doc l
  have hperm : l.reverse.Perm l := List.reverse_perm l
  have hnodup : (l.map (·.offset)).Nodup := by decide
  exact ⟨hperm, hnodup, by decide, (splice_spec doc l).2.2 l.reverse hperm hnodup⟩

end Text

end FlutterScaffold
