import FlutterScaffold.Proofs.Text.Lines

/-!
# Searching a text that is put together

A byte that the needle does not hold separates a search: an occurrence stands on one side of it or
on the other. So text between two such bytes that lacks the needle only moves what is found behind
it, and a line break written into a text never changes which line break the text is said to use.
-/

namespace FlutterScaffold.Text

open Byte (newline carriageReturn)

/-- A head that lacks a byte stands in front of its first occurrence. -/
theorem prefix_append_cons_iff {α : Type} {w a b : List α} {c : α} (hc : c ∉ w) :
    w <+: a ++ c :: b ↔ w <+: a := by
  constructor
  · intro h
    induction a generalizing w with
    | nil =>
      cases w with
      | nil => exact List.nil_prefix
      | cons x w =>
        have hx := (List.cons_prefix_cons.mp h).1
        exact absurd (List.mem_cons.mpr (Or.inl hx.symm)) hc
    | cons y a ih =>
      cases w with
      | nil => exact List.nil_prefix
      | cons x w =>
        obtain ⟨hx, hw⟩ := List.cons_prefix_cons.mp h
        exact List.cons_prefix_cons.mpr ⟨hx, ih (List.not_mem_of_not_mem_cons hc) hw⟩
  · exact fun h => h.trans (List.prefix_append _ _)

/-- A run of elements that lacks one of them stands on one side of it. -/
theorem infix_append_cons_iff {α : Type} {w a b : List α} {c : α} (hc : c ∉ w) :
    w <:+: a ++ c :: b ↔ w <:+: a ∨ w <:+: b := by
  induction a with
  | nil =>
    rw [List.nil_append, List.infix_cons_iff, List.infix_nil]
    have h := prefix_append_cons_iff (a := []) (b := b) hc
    rw [List.nil_append, List.prefix_nil] at h
    rw [h]
  | cons y a ih =>
    rw [List.cons_append, List.infix_cons_iff, ih, List.infix_cons_iff, ← List.cons_append,
      prefix_append_cons_iff hc, or_assoc]

/-- A run of two elements in a concatenation stands in one part or across the seam. -/
theorem pair_infix_append_iff {α : Type} {p q : α} {x y : List α} :
    [p, q] <:+: x ++ y ↔
      [p, q] <:+: x ∨ [p, q] <:+: y ∨ (x.getLast? = some p ∧ y.head? = some q) := by
  induction x with
  | nil => simp
  | cons a x ih =>
    rw [List.cons_append, List.infix_cons_iff, List.infix_cons_iff, ih]
    cases x with
    | nil => cases y <;> simp [List.cons_prefix_cons]; tauto
    | cons b x => simp [List.cons_prefix_cons]; tauto

/-- What follows the first occurrence does not matter to a search. -/
theorem indexOf?_append_of_le {needle a b : Text} {o : Nat} (h : indexOf? needle (a ++ b) = some o)
    (ho : o + needle.length ≤ a.length) (c : Text) : indexOf? needle (a ++ c) = some o := by
  induction a generalizing o with
  | nil =>
    simp only [List.length_nil, Nat.le_zero_eq, Nat.add_eq_zero_iff, List.length_eq_zero_iff] at ho
    obtain ⟨rfl, rfl⟩ := ho
    cases c <;> rfl
  | cons x a ih =>
    have hhead (y z : Text) (hp : needle <+: x :: (a ++ y))
        (hlen : needle.length ≤ (x :: a).length) : needle <+: x :: (a ++ z) :=
      (List.prefix_of_prefix_length_le hp (List.prefix_append (x :: a) y) hlen).trans
        (List.prefix_append (x :: a) z)
    simp only [List.cons_append, indexOf?, List.isPrefixOf_iff_prefix] at h ⊢
    split at h
    · rename_i hp
      obtain rfl := Option.some.inj h
      rw [if_pos (hhead b c hp (by simpa using ho))]
    · rename_i hp
      obtain ⟨m, hm, rfl⟩ := Option.map_eq_some_iff.mp h
      rw [List.length_cons] at ho
      rw [if_neg fun hp' => hp (hhead c b hp' (by rw [List.length_cons]; omega)),
        ih hm (by omega), Option.map_some]

/-- A search goes on behind a byte that the needle lacks. -/
theorem indexOf?_append_cons {needle : Text} {c : Byte} (hne : needle ≠ []) (hc : c ∉ needle)
    (a b : Text) : indexOf? needle (a ++ c :: b) =
      (indexOf? needle a).or ((indexOf? needle b).map (· + (a.length + 1))) := by
  induction a with
  | nil =>
    have hp : ¬ needle.isPrefixOf (c :: b) = true := by
      rw [List.isPrefixOf_iff_prefix]
      have h := prefix_append_cons_iff (a := []) (b := b) hc
      rw [List.nil_append, List.prefix_nil] at h
      rwa [h]
    simp [indexOf?, hp, hne]
  | cons x a ih =>
    have hp : needle.isPrefixOf (x :: (a ++ c :: b)) = needle.isPrefixOf (x :: a) := by
      rw [Bool.eq_iff_iff, List.isPrefixOf_iff_prefix, List.isPrefixOf_iff_prefix,
        ← List.cons_append, prefix_append_cons_iff hc]
    rw [List.cons_append, indexOf?, indexOf?, hp, ih]
    split
    · rfl
    · cases indexOf? needle a <;> cases indexOf? needle b <;> simp; omega

/-- A needle is not found where one of its bytes is missing. -/
theorem indexOf?_eq_none_of_mem {needle t : Text} {c : Byte} (hc : c ∈ needle) (ht : c ∉ t) :
    indexOf? needle t = none :=
  indexOf?_eq_none_iff.mpr fun h => ht (h.subset hc)

theorem hasInfix_iff {needle t : Text} : hasInfix needle t = true ↔ needle <:+: t := by
  rw [hasInfix, Option.isSome_iff_ne_none, ne_eq, indexOf?_eq_none_iff, not_not]

/-- Where a text uses one line break only, any text made of it and its own line break does. -/
theorem lineBreak_eq_of_infix_iff {t u : Text} (h : crlf <:+: t ↔ crlf <:+: u) :
    lineBreak t = lineBreak u := by
  unfold lineBreak
  rw [Bool.eq_iff_iff.mpr (hasInfix_iff.trans (h.trans hasInfix_iff.symm))]

end FlutterScaffold.Text
