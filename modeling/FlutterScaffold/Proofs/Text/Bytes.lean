import Mathlib.Tactic
import FlutterScaffold.Text.Byte

/-!
# Deciding what holds of every byte

There are finitely many bytes, so a decidable property of bytes is decided for all of them at once.
Classes of bytes that exclude each other are compared this way.
-/

namespace FlutterScaffold.Byte

/-- A property of all bytes is a property of all numbers below 256. -/
theorem forall_iff {p : Byte → Prop} : (∀ b, p b) ↔ ∀ n : Fin 256, p (UInt8.ofFin n) :=
  ⟨fun h n => h (UInt8.ofFin n), fun h b => h b.toFin⟩

instance decidableForall {p : Byte → Prop} [DecidablePred p] : Decidable (∀ b, p b) :=
  decidable_of_iff' _ forall_iff

theorem not_isIdentifier_of_isSpace : ∀ b, isSpace b → isIdentifier b = false := by decide +kernel

/-- No byte of an identifier is white space. -/
theorem not_isSpace_of_isIdentifier (b : Byte) (h : isIdentifier b) : isSpace b = false := by
  by_contra hspace
  rw [Bool.not_eq_false] at hspace
  rw [not_isIdentifier_of_isSpace b hspace] at h
  cases h

theorem isIdentifier_of_isAlnum (b : Byte) (h : isAlnum b) : isIdentifier b := by
  simp only [isAlnum, Bool.or_eq_true] at h
  rcases h with (hupper | hlower) | hdigit
  · simp [isIdentifier, isIdentifierStart, hupper]
  · simp [isIdentifier, isIdentifierStart, hlower]
  · simp [isIdentifier, hdigit]

theorem isMargin_of_isBlank (b : Byte) (h : isBlank b) : isMargin b := by simp [isMargin, h]

/-- Blanks are layout. -/
theorem isLayout_of_isBlank (b : Byte) (h : isBlank b) : isLayout b := by
  simp [isLayout, isMargin_of_isBlank b h]

/-- Layout other than a newline is margin. -/
theorem isMargin_of_isLayout (b : Byte) (h : isLayout b) (hne : b ≠ newline) : isMargin b := by
  simpa [isLayout, hne] using h

theorem isSpace_of_isMargin (b : Byte) (h : isMargin b) : isSpace b := by
  simp only [isMargin, Bool.or_eq_true, beq_iff_eq] at h
  rcases h with hblank | rfl
  · exact isSpace_of_isBlank hblank
  · rfl

/-- Layout is white space. -/
theorem isSpace_of_isLayout (b : Byte) (h : isLayout b) : isSpace b := by
  by_cases hne : b = newline
  · subst hne
    rfl
  · exact isSpace_of_isMargin b (isMargin_of_isLayout b h hne)

end FlutterScaffold.Byte
