import FlutterScaffold.Dart.Lexis

/-!
# Matching brackets and the last byte of code

Two questions about a stretch of Dart source: which closer belongs to an opening bracket, and which
byte of a bracketed region is the last one that is neither blank nor part of a comment. A match lies
behind its opener and within the text (`matchingBracket_bounds`).
-/

namespace FlutterScaffold.Dart

/-- Offset of the closer of the bracket at `opener`; none when that byte opens nothing or when the
brackets do not balance before the end of the text. -/
def matchingBracket (text : Text) (opener : Nat) : Option Nat :=
  match text.drop opener with
  | [] => none
  | b :: rest =>
    (closerOf? b).bind fun closer => ((Reader.inside closer).lengthToRest rest).map (opener + ·)

/-- A matching closer stands behind its opener and within the text. -/
theorem matchingBracket_bounds {text : Text} {opener closer : Nat}
    (h : matchingBracket text opener = some closer) : opener < closer ∧ closer < text.length := by
  unfold matchingBracket at h
  split at h
  · simp at h
  · rename_i b rest hd
    obtain ⟨c, _, hc⟩ := Option.bind_eq_some_iff.mp h
    obtain ⟨n, hn, rfl⟩ := Option.map_eq_some_iff.mp hc
    have hb := Reader.lengthToRest_bounds hn
    have hl := congrArg List.length hd
    simp only [List.length_drop, List.length_cons] at hl
    omega

namespace Reader

/-- Follows the source from offset `pos` up to `limit` and keeps the offset of the last byte of code
seen so far; a string literal counts as a whole, once it is closed. The reading ends before `limit`
where a comment or literal cannot be closed. -/
def lastCode (s : Reader) (pos limit : Nat) (seen : Option Nat) : Text → Option Nat
  | [] => seen
  | b :: rest =>
    if s.atRest && limit ≤ pos then seen
    else
      match s.read b rest with
      | none => seen
      | some next =>
        let counts :=
          match next.region with
          | .code => !Byte.isSpace b
          | .comment => false
          | .string => true
        next.lastCode (pos + 1) limit (if next.atRest && counts then some pos else seen) rest

end Reader

/-- Offset of the last byte of code at or behind `start` and before `limit`. -/
def lastCode? (text : Text) (start limit : Nat) : Option Nat :=
  let before := if start = 0 then none else text[start - 1]?
  let reader : Reader := { afterName := before.any Byte.isIdentifier }
  reader.lastCode start limit none (text.drop start)

/-- Offset of the last byte of code strictly between `opener` and `closer`, and `opener` itself when
there is none. -/
def lastSignificant (text : Text) (opener closer : Nat) : Nat :=
  (lastCode? text (opener + 1) closer).getD opener

end FlutterScaffold.Dart
