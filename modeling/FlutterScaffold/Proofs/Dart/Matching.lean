import FlutterScaffold.Proofs.Text.Splices
import FlutterScaffold.Dart.Bracket

/-!
# Reading behind an insertion

Matching brackets and the last byte of code are found by reading on from an offset. Text inserted
in front of that offset moves what is found and changes nothing else.
-/

namespace FlutterScaffold.Dart

/-- Brackets behind an insertion match as before. -/
theorem matchingBracket_insert {a i b : Text} {o : Nat} (ho : a.length ≤ o) :
    matchingBracket (a ++ (i ++ b)) (i.length + o) =
      (matchingBracket (a ++ b) o).map (i.length + ·) := by
  rw [matchingBracket, matchingBracket, Text.drop_insert ho]
  cases (a ++ b).drop o with
  | nil => rfl
  | cons c rest =>
    cases hc : closerOf? c with
    | none => simp [hc]
    | some closer =>
      simp only [hc, Option.bind_some, Option.map_map]
      refine Option.map_congr fun n _ => ?_
      simp only [Function.comp_apply]
      omega

namespace Reader

/-- Whether byte `b` counts as the last byte of code so far, when the reader behind it is `s`. -/
def marks (s : Reader) (b : Byte) : Bool :=
  s.atRest &&
    match s.region with
    | .code => !Byte.isSpace b
    | .comment => false
    | .string => true

theorem lastCode_cons (s : Reader) (pos limit : Nat) (seen : Option Nat) (b : Byte) (rest : Text) :
    s.lastCode pos limit seen (b :: rest) =
      if s.atRest && limit ≤ pos then seen
      else
        match s.read b rest with
        | none => seen
        | some next => next.lastCode (pos + 1) limit (if next.marks b then some pos else seen)
          rest :=
  rfl

/-- The last byte of code is found at the same place of a text that is counted from elsewhere. -/
theorem lastCode_add (n : Nat) (s : Reader) (pos limit : Nat) (seen : Option Nat) (t : Text) :
    s.lastCode (n + pos) (n + limit) (seen.map (n + ·)) t =
      (s.lastCode pos limit seen t).map (n + ·) := by
  induction t generalizing s pos seen with
  | nil => rfl
  | cons b rest ih =>
    rw [lastCode_cons, lastCode_cons]
    simp only [Nat.add_le_add_iff_left]
    split
    · rfl
    · cases s.read b rest with
      | none => rfl
      | some next =>
        have hseen : (if next.marks b then some (n + pos) else seen.map (n + ·)) =
            (if next.marks b then some pos else seen).map (n + ·) := by split <;> rfl
        simp only [hseen, Nat.add_assoc, ih]

/-- The last byte of code stands behind the start of the search. -/
theorem lastCode_bounds {s : Reader} {pos limit : Nat} {seen : Option Nat} {t : Text} {n : Nat}
    (h : s.lastCode pos limit seen t = some n) :
    seen = some n ∨ (pos ≤ n ∧ n < pos + t.length) := by
  induction t generalizing s pos seen with
  | nil => exact Or.inl h
  | cons b rest ih =>
    rw [lastCode_cons] at h
    split at h
    · exact Or.inl h
    · split at h
      · exact Or.inl h
      · rw [List.length_cons]
        rcases ih h with hseen | hbounds
        · split at hseen
          · obtain rfl := Option.some.inj hseen
            exact Or.inr (by omega)
          · exact Or.inl hseen
        · exact Or.inr (by omega)

end Reader

theorem lastCode?_bounds {t : Text} {start limit n : Nat}
    (h : lastCode? t start limit = some n) : start ≤ n ∧ n < t.length := by
  rcases Reader.lastCode_bounds h with h | ⟨hlo, hhi⟩
  · simp at h
  · rw [List.length_drop] at hhi
    omega

theorem lastCode?_insert {a i b : Text} {start limit : Nat} (h : a.length < start) :
    lastCode? (a ++ (i ++ b)) (i.length + start) (i.length + limit) =
      (lastCode? (a ++ b) start limit).map (i.length + ·) := by
  have hbefore : (a ++ (i ++ b))[i.length + start - 1]? = (a ++ b)[start - 1]? := by
    rw [Nat.add_sub_assoc (by omega), Text.getElem?_insert (by omega)]
  have hz : ¬ i.length + start = 0 := by omega
  have hz' : ¬ start = 0 := by omega
  rw [lastCode?, lastCode?, Text.drop_insert (by omega), hbefore, if_neg hz, if_neg hz',
    ← Reader.lastCode_add]
  rfl

end FlutterScaffold.Dart
