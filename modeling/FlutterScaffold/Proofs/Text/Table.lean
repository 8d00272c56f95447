import Mathlib.Data.List.TakeWhile
import FlutterScaffold.Text.Table

/-!
# Searching a sorted table

Byte order is a strict total order, so in a table that stands in this order the words before a given
one come first, and any word tells where they end (`dropWhile_of_precedes`,
`forall_not_precedes_of_not_precedes`). So halving stops where they end (`lowerBound_eq_dropWhile`),
and it finds a word exactly when the table holds it (`binarySearch_iff`).
-/

namespace FlutterScaffold.Text

theorem precedes_iff {s t : Text} : precedes s t = true ↔ s < t := List.lex_eq_true_iff_lt

theorem precedes_self (t : Text) : precedes t t = false :=
  Bool.eq_false_iff.mpr fun h => List.lt_irrefl t (precedes_iff.mp h)

theorem precedes_trans {r s t : Text} (h : precedes r s) (h' : precedes s t) : precedes r t :=
  precedes_iff.mpr (List.lt_trans (precedes_iff.mp h) (precedes_iff.mp h'))

/-- Of two texts one stands before the other, unless they are the same. -/
theorem eq_of_not_precedes {s t : Text} (h : precedes s t = false) (h' : precedes t s = false) :
    s = t := by
  rw [Bool.eq_false_iff, ne_eq, precedes_iff, List.not_lt] at h h'
  exact List.le_antisymm h' h

section Table

variable {table front later : List Text} {word middle : Text}

/-- Nothing is dropped where no word is in front of the one looked for. -/
theorem dropWhile_precedes_eq_self (h : ∀ entry ∈ table, precedes entry word = false) :
    table.dropWhile (precedes · word) = table :=
  List.dropWhile_eq_self_iff.mpr fun hpos => by simp [h _ (List.getElem_mem hpos)]

/-- A word in front of the one looked for rules out all up to itself. -/
theorem dropWhile_of_precedes (htable : (front ++ middle :: later).Pairwise (precedes · ·))
    (h : precedes middle word) :
    (front ++ middle :: later).dropWhile (precedes · word) = later.dropWhile (precedes · word) := by
  have hbefore := (List.pairwise_append.mp htable).2.2
  have hfront : ∀ entry ∈ front, precedes entry word := fun entry hentry =>
    precedes_trans (hbefore entry hentry middle (List.mem_cons_self ..)) h
  rw [List.dropWhile_append_of_pos hfront, List.dropWhile_cons, if_pos h]

/-- A word that is not in front of the one looked for rules out that any behind it is. -/
theorem forall_not_precedes_of_not_precedes
    (htable : (middle :: later).Pairwise (precedes · ·)) (h : precedes middle word = false) :
    ∀ entry ∈ middle :: later, precedes entry word = false := by
  refine List.forall_mem_cons.mpr ⟨h, fun entry hentry => Bool.eq_false_iff.mpr fun hword => ?_⟩
  have hmiddle := (List.pairwise_cons.mp htable).1 entry hentry
  rw [precedes_trans hmiddle hword] at h
  exact absurd h (by simp)

/-- Halving stops at the first word that is not in front of the one looked for, if none of those
beyond the stretch is. What precedes the middle of a sorted table is dropped with it; otherwise the
search goes on in front of the middle, and the middle is beyond the stretch. -/
theorem lowerBound_eq_dropWhile {fuel count : Nat} (htable : table.Pairwise (precedes · ·))
    (hfuel : count ≤ fuel) (hcount : count ≤ table.length)
    (hbeyond : ∀ entry ∈ table.drop count, precedes entry word = false) :
    lowerBound word fuel count table = table.dropWhile (precedes · word) := by
  induction fuel generalizing count table with
  | zero =>
    obtain rfl := Nat.le_zero.mp hfuel
    exact (dropWhile_precedes_eq_self hbeyond).symm
  | succ fuel ih =>
    rw [lowerBound]
    split
    · rename_i hzero
      subst hzero
      exact (dropWhile_precedes_eq_self hbeyond).symm
    · rename_i hpos
      cases hdrop : table.drop (count / 2) with
      | nil => exact absurd (List.drop_eq_nil_iff.mp hdrop) (by omega)
      | cons middle later =>
        obtain ⟨front, hfront, rfl⟩ : ∃ front : List Text, front.length = count / 2 ∧
            table = front ++ middle :: later :=
          ⟨table.take (count / 2), List.length_take_of_le (by omega),
            by rw [← hdrop, List.take_append_drop]⟩
        have hbehind := (List.pairwise_append.mp htable).2.1
        rw [List.length_append, List.length_cons] at hcount
        dsimp only
        split
        · rename_i hword
          rw [dropWhile_of_precedes htable hword]
          refine ih (List.pairwise_cons.mp hbehind).2 (by omega) (by omega) fun entry hentry => ?_
          refine hbeyond entry ?_
          obtain ⟨more, hmore⟩ : ∃ more, count = front.length + (more + 1) :=
            ⟨count - count / 2 - 1, by omega⟩
          rw [hmore, List.drop_length_add_append, List.drop_succ_cons]
          rwa [show count - count / 2 - 1 = more by omega] at hentry
        · rename_i hword
          refine ih htable (by omega) (by rw [List.length_append, List.length_cons]; omega) ?_
          rw [hdrop]
          exact forall_not_precedes_of_not_precedes hbehind (by simpa using hword)

/-- A sorted table is searched without a mistake. -/
theorem binarySearch_iff (htable : table.Pairwise (precedes · ·)) :
    binarySearch table word = true ↔ word ∈ table := by
  have hsplit := List.takeWhile_append_dropWhile (p := (precedes · word)) (l := table)
  have hbefore : word ∉ table.takeWhile (precedes · word) := fun hmem => by
    simpa [precedes_self] using List.mem_takeWhile_imp hmem
  rw [binarySearch, lowerBound_eq_dropWhile htable le_rfl le_rfl (by simp)]
  cases hrest : table.dropWhile (precedes · word) with
  | nil =>
    rw [hrest, List.append_nil] at hsplit
    simpa [hsplit] using hbefore
  | cons entry later =>
    have hentry : precedes entry word = false := by
      have hne : table.dropWhile (precedes · word) ≠ [] := by simp [hrest]
      simpa [hrest] using List.head_dropWhile_not (precedes · word) hne
    rw [hrest] at hsplit
    rw [← hsplit] at htable
    have hbehind := (List.pairwise_append.mp htable).2.1
    rw [← hsplit, List.mem_append, or_iff_right hbefore, Bool.not_eq_true']
    constructor
    · intro hword
      exact List.mem_cons.mpr (Or.inl (eq_of_not_precedes hword hentry))
    · intro hmem
      obtain rfl | hmem := List.mem_cons.mp hmem
      · exact precedes_self word
      · have hlater := (List.pairwise_cons.mp hbehind).1 word hmem
        rw [hlater] at hentry
        exact absurd hentry (by simp)

end Table

end FlutterScaffold.Text
