import FlutterScaffold.Proofs.Dart.Balance

/-!
# Brackets match where they stand

Whether a bracket is closed at some byte is told by the stretch from the one to the other, both of
them included (`matchingBracket_placed_iff`). Neither a quote or comment in front of the opener nor
the start of a delimiter behind the closer has a say in it, so the stretch may stand anywhere
(`matchingBracket_local`).
-/

namespace FlutterScaffold.Dart

section Place

variable {text contents : Text} {b c : Byte} {n : Nat}

/-- Wherever a stretch stands, its first byte is closed by its last one exactly when the closer is
the bracket's own and the source between the two is balanced. -/
theorem matchingBracket_placed_iff (before after : Text) :
    matchingBracket (before ++ (b :: (contents ++ [c]) ++ after)) before.length =
        some (before.length + (contents.length + 1)) ↔
      closerOf? b = some c ∧ Balanced contents := by
  have htext : before ++ (b :: (contents ++ [c]) ++ after) =
      before ++ b :: (contents ++ c :: after) := by simp
  have hcloser : before.length + (contents.length + 1) =
      before.length + 1 + contents.length := by omega
  rw [htext, hcloser]
  constructor
  · intro h
    obtain ⟨before', b', contents', c', after', hcut, hopener, hlength, hb, hbalanced⟩ :=
      exists_of_matchingBracket_eq_some h
    obtain ⟨hb', hbehind⟩ := List.cons.inj (List.append_inj hcut hopener).2
    obtain ⟨hcontents, hafter⟩ := List.append_inj hbehind (by omega)
    rw [hb', hcontents, (List.cons.inj hafter).1]
    exact ⟨hb, hbalanced⟩
  · rintro ⟨hb, hbalanced⟩
    exact (matchingBracket_eq_iff rfl hb).mpr ((lengthToRest_eq_iff hb).mpr hbalanced)

/-- No bracket closes itself. -/
theorem matchingBracket_ne_self (text : Text) (opener : Nat) :
    matchingBracket text opener ≠ some opener := by
  intro h
  exact absurd (matchingBracket_bounds h).1 (Nat.lt_irrefl opener)

/-- A text with more than one byte is its first byte, what stands between, and its last byte. -/
theorem exists_cut_ends (h : text.length = n + 2) :
    ∃ b contents c, text = b :: (contents ++ [c]) ∧ contents.length = n := by
  obtain ⟨b, more, rfl⟩ := List.exists_cons_of_length_eq_add_one h
  have hlength : more.length = n + 1 := Nat.succ_inj.mp h
  have hne : more ≠ [] := List.ne_nil_of_length_eq_add_one hlength
  refine ⟨b, more.dropLast, more.getLast hne, ?_, ?_⟩
  · rw [List.dropLast_append_getLast]
  · rw [List.length_dropLast, hlength, Nat.add_sub_cancel]

theorem matchingBracket_slice_iff (h : text.length = n + 1) (before after : Text) :
    matchingBracket (before ++ (text ++ after)) before.length = some (before.length + n) ↔
      matchingBracket text 0 = some n := by
  cases n with
  | zero => simp only [Nat.add_zero, matchingBracket_ne_self]
  | succ n =>
    obtain ⟨b, contents, c, rfl, rfl⟩ := exists_cut_ends h
    have halone := @matchingBracket_placed_iff contents b c [] []
    rw [List.nil_append, List.append_nil, List.length_nil, Nat.zero_add] at halone
    rw [matchingBracket_placed_iff, halone]

end Place

/-- A bracket at the start of a text is closed by the last byte of the text exactly when it is so
wherever the text stands. So what stands in front of the opener and behind the closer can be
exchanged. -/
theorem matchingBracket_local {text : Text} {c : Nat} (h : text.length = c + 1)
    (before after : Text) :
    (matchingBracket text 0 = some c ↔
      matchingBracket (before ++ (text ++ after)) before.length = some (before.length + c)) ∧
    ∀ before' after',
      (matchingBracket (before ++ (text ++ after)) before.length = some (before.length + c) ↔
        matchingBracket (before' ++ (text ++ after')) before'.length =
          some (before'.length + c)) := by
  refine ⟨(matchingBracket_slice_iff h before after).symm, fun before' after' => ?_⟩
  rw [matchingBracket_slice_iff h, matchingBracket_slice_iff h]

/-- Neither the raw literal and the comment that seem to be open in front of the bracket nor the
comment that starts behind its closer has a say in the match. -/
theorem matchingBracket_local_between_marks :
    let text := lit "('$\x7b\"[\"\x7d', \x7b/*)*/\x7d)"
    matchingBracket (lit "r'\x7b/*" ++ (text ++ lit "/*'")) 5 = some 23 := by
  intro text
  have hlength : text.length = 18 + 1 := by decide
  have hmatch : matchingBracket text 0 = some 18 := by decide
  exact (matchingBracket_local hlength (lit "r'\x7b/*") (lit "/*'")).1.mp hmatch

end FlutterScaffold.Dart
