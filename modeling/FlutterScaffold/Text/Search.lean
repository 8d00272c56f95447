import FlutterScaffold.Text.Byte

/-!
# Searching byte strings

`indexOf?` finds the first occurrence of a byte string, and `after?` strips a known head. The laws
say where the occurrence stands (`isPrefix_drop_of_indexOf?`), that there is none earlier
(`not_isPrefix_drop_of_lt`), and that a failed search rules out every offset
(`indexOf?_eq_none_iff`).
-/

namespace FlutterScaffold.Text

/-- What follows `head` in a text that starts with it. -/
def after? (head t : Text) : Option Text :=
  if head.isPrefixOf t then some (t.drop head.length) else none

theorem after?_eq_some_iff {head t rest : Text} : after? head t = some rest ↔ t = head ++ rest := by
  unfold after?
  split
  · rename_i h
    obtain ⟨s, rfl⟩ := List.isPrefixOf_iff_prefix.mp h
    simp [eq_comm]
  · rename_i h
    constructor
    · simp
    · rintro rfl
      exact absurd (List.isPrefixOf_iff_prefix.mpr (List.prefix_append _ _)) h

/-- Offset of the first occurrence of `needle`; the empty needle occurs at 0. -/
def indexOf? (needle : Text) : Text → Option Nat
  | [] => if needle.isEmpty then some 0 else none
  | b :: rest =>
    if needle.isPrefixOf (b :: rest) then some 0 else (indexOf? needle rest).map (· + 1)

/-- Whether `needle` occurs anywhere. -/
def hasInfix (needle t : Text) : Bool := (indexOf? needle t).isSome

/-- The needle stands at the offset that is found. -/
theorem isPrefix_drop_of_indexOf? {needle t : Text} {n : Nat} (h : indexOf? needle t = some n) :
    needle <+: t.drop n := by
  induction t generalizing n with
  | nil =>
    simp only [indexOf?] at h
    split at h
    · rename_i he
      simp [List.isEmpty_iff.mp he]
    · simp at h
  | cons b rest ih =>
    simp only [indexOf?] at h
    split at h
    · rename_i hp
      obtain rfl := Option.some.inj h
      exact List.isPrefixOf_iff_prefix.mp hp
    · obtain ⟨m, hm, rfl⟩ := Option.map_eq_some_iff.mp h
      simpa using ih hm

/-- The needle does not stand before the offset that is found. -/
theorem not_isPrefix_drop_of_lt {needle t : Text} {n k : Nat} (h : indexOf? needle t = some n)
    (hk : k < n) : ¬ needle <+: t.drop k := by
  induction t generalizing n k with
  | nil =>
    simp only [indexOf?] at h
    split at h
    · obtain rfl := Option.some.inj h
      omega
    · simp at h
  | cons b rest ih =>
    simp only [indexOf?] at h
    split at h
    · obtain rfl := Option.some.inj h
      omega
    · rename_i hp
      obtain ⟨m, hm, rfl⟩ := Option.map_eq_some_iff.mp h
      cases k with
      | zero => exact fun hpre => hp (List.isPrefixOf_iff_prefix.mpr hpre)
      | succ k => simpa using ih hm (by omega)

/-- A search fails exactly when the needle occurs nowhere. -/
theorem indexOf?_eq_none_iff {needle t : Text} :
    indexOf? needle t = none ↔ ¬ needle <:+: t := by
  induction t with
  | nil => cases needle <;> simp [indexOf?]
  | cons b rest ih =>
    simp only [indexOf?]
    rw [List.infix_cons_iff]
    split
    · rename_i hp
      simp [List.isPrefixOf_iff_prefix.mp hp]
    · rename_i hp
      rw [List.isPrefixOf_iff_prefix] at hp
      simp [ih, hp]

end FlutterScaffold.Text
