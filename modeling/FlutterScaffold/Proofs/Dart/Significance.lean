import FlutterScaffold.Proofs.Dart.Balance

/-!
# The last byte of code in a bracket

The last byte of code is looked for by a second reader, which is started behind the bracket and does
not know of it. It takes the contents of the bracket apart as the grammar does, so what it finds
lies in the bracket: nothing but blanks and comments follows, and what it points at is a byte of
code or the closing quote of a literal (`lastSignificant_spec`).
-/

namespace FlutterScaffold.Dart

open Byte (newline slash backslash)

/-- Whether a byte is a blank in code or belongs to a comment. -/
def IsFiller (b : Byte) (region : Region) : Prop :=
  region = .comment ∨ region = .code ∧ Byte.isSpace b = true

/-! ## Where literals end -/

/-- Whether every run of literals in a text ends in a quote. -/
def EndsInQuotes (w : Text) (l : List Region) : Prop :=
  ∀ i b, w[i]? = some b → l[i]? = some .string → l[i + 1]? ≠ some .string → isQuote b = true

section EndsInQuotes

variable {v w : Text} {k l : List Region} {a : Bool}

theorem EndsInQuotes.append (hv : EndsInQuotes v k) (hw : EndsInQuotes w l)
    (hlen : k.length = v.length) : EndsInQuotes (v ++ w) (k ++ l) := by
  intro i b hb hstring hend
  by_cases hi : i < v.length
  · rw [List.getElem?_append_left hi] at hb
    rw [List.getElem?_append_left (hlen ▸ hi)] at hstring
    refine hv i b hb hstring fun hnext => hend ?_
    rw [List.getElem?_append_left (List.getElem?_eq_some_iff.mp hnext).1, hnext]
  · have hle : v.length ≤ i := Nat.le_of_not_lt hi
    rw [List.getElem?_append_right hle] at hb
    rw [List.getElem?_append_right (hlen ▸ hle), hlen] at hstring
    rw [List.getElem?_append_right (by omega), hlen, Nat.sub_add_comm hle] at hend
    exact hw _ b hb hstring hend

theorem endsInQuotes_of_string_not_mem (h : .string ∉ l) : EndsInQuotes w l :=
  fun _ _ _ hstring => absurd (List.mem_of_getElem? hstring) h

theorem endsInQuotes_of_suffix {q : Byte} (hq : isQuote q = true) (h : [q] <:+ w) :
    EndsInQuotes w (List.replicate w.length .string) := by
  obtain ⟨u, rfl⟩ := h
  intro i b hb _ hend
  have hi := (List.getElem?_eq_some_iff.mp hb).1
  have hlast : ¬ i + 1 < (u ++ [q]).length := fun hlt =>
    hend (by rw [List.getElem?_replicate, if_pos hlt])
  obtain rfl : i = u.length := by
    rw [List.length_append, List.length_singleton] at hi hlast
    omega
  obtain rfl : q = b := by simpa using hb
  exact hq

/-- Literals end in quotes. Only they have bytes of a string; at the seams of the pieces the region
is another one, or the next piece starts. -/
theorem Derives.endsInQuotes (h : Derives (.contents a) w l) : EndsInQuotes w l := by
  generalize hp : Phrase.contents a = p at h
  induction h generalizing a with
  | nil => exact endsInQuotes_of_string_not_mem List.not_mem_nil
  | @lineComment _ v w l _ _ ih =>
    have hcomment : EndsInQuotes (slash :: slash :: (v ++ [newline]))
        (List.replicate (v.length + 3) .comment) :=
      endsInQuotes_of_string_not_mem (by simp)
    simpa using hcomment.append (ih rfl) (by simp)
  | @blockComment _ v w k l hv _ _ ih =>
    have hcomment : EndsInQuotes (slash :: byte '*' :: v) (.comment :: .comment :: k) :=
      endsInQuotes_of_string_not_mem (by simp [hv.regions_eq])
    simpa using hcomment.append (ih rfl) (by simp [hv.length_eq])
  | @literal _ q triple raw v w k l hq _ _ hv _ _ ih =>
    have hquote : [q] <:+ quotes q triple := by
      cases triple
      · exact List.suffix_refl _
      · exact List.suffix_append [q, q] [q]
    have hbody := endsInQuotes_of_suffix hq ((hquote.trans hv.mark_suffix).trans
      (List.suffix_append (literalMark q triple raw) v))
    have hregions : List.replicate (literalMark q triple raw ++ v).length Region.string =
        List.replicate (literalMark q triple raw).length .string ++ k := by
      rw [hv.regions_eq, List.replicate_append_replicate, List.length_append]
    rw [hregions] at hbody
    simpa using hbody.append (ih rfl) (by simp [hv.length_eq])
  | @group _ b c v w k l _ hv _ ihv ihw =>
    have hbyte (b : Byte) : EndsInQuotes [b] [.code] := endsInQuotes_of_string_not_mem (by simp)
    simpa using (hbyte b).append ((ihv rfl).append ((hbyte c).append (ihw rfl) rfl) hv.length_eq)
      rfl
  | @plain _ b w l _ _ _ _ _ ih =>
    have hbyte : EndsInQuotes [b] [.code] := endsInQuotes_of_string_not_mem (by simp)
    exact hbyte.append (ih rfl) rfl
  | endBlock | nest | inBlock | endLiteral | escape | interpolation | inLiteral => simp at hp

end EndsInQuotes

/-! ## The last significant byte -/

section Reader

open Reader

variable {s t : Reader} {rest w : Text} {a : Bool} {l : List Region}

/-- In a stretch without significant bytes there are only fillers. -/
theorem isFiller_of_significant_eq_nil (h : s.run rest w = some t)
    (hnil : s.significant rest w = []) {i : Nat} {b : Byte} (hb : w[i]? = some b) :
    ∃ region, (s.regions rest w)[i]? = some region ∧ IsFiller b region := by
  induction w generalizing s i with
  | nil => simp at hb
  | cons c w ih =>
    obtain ⟨r, hr, -, h⟩ := exists_of_runUntil_cons h
    obtain ⟨hc, hnil⟩ := significant_cons_eq_nil hr hnil
    rw [regions_cons_of_read hr]
    cases i with
    | succ i => exact ih h hnil hb
    | zero =>
      obtain rfl : c = b := Option.some.inj hb
      refine ⟨r.region, rfl, ?_⟩
      rw [isSignificant] at hc
      cases hregion : r.region with
      | code => exact Or.inr ⟨rfl, by simpa [hregion] using hc⟩
      | comment => exact Or.inl rfl
      | string => simp [hregion] at hc

/-- A fresh reader tells the regions of bracketed source as they are derived. -/
theorem Derives.exists_run (h : Derives (.contents false) w l) (hrest : Inert rest) :
    ∃ t, ({} : Reader).run rest w = some t ∧ t.atRest = true ∧
      ({} : Reader).regions rest w = l := by
  obtain ⟨a, region, -, hgoes⟩ := h.reads (fun _ => false) [] .code rest (Or.inl rfl)
    (fun _ _ => rfl) hrest
  refine ⟨_, hgoes.runUntil, rfl, ?_⟩
  rw [hgoes.regions_eq, hue_nil, List.map_id]

/-- Source is derived in one way, as far as the regions of its bytes go. -/
theorem Derives.det {k : List Region} (h : Derives (.contents false) w k)
    (h' : Derives (.contents false) w l) : k = l := by
  have hrest : Inert [] := by simp [Inert]
  obtain ⟨-, -, -, hk⟩ := h.exists_run hrest
  obtain ⟨-, -, -, hl⟩ := h'.exists_run hrest
  exact hk.symm.trans hl

/-- Where source holds code, the last byte that counts as code is no blank, or it is the quote that
ends a literal. Behind it there are only fillers. -/
theorem Derives.lastMark_cases (h : Derives (.contents false) w l) (hrest : Inert rest)
    (pos : Nat) :
    (({} : Reader).lastMark pos none rest w = none ∧
      ∀ (i : Nat) (b : Byte), w[i]? = some b →
        ∃ region, l[i]? = some region ∧ IsFiller b region) ∨
    ∃ (n : Nat) (b : Byte), ({} : Reader).lastMark pos none rest w = some (pos + n) ∧
      w[n]? = some b ∧
      (l[n]? = some .code ∧ Byte.isSpace b = false ∨
        l[n]? = some .string ∧ isQuote b = true ∧ l[n + 1]? ≠ some .string) ∧
      ∀ (i : Nat) (b : Byte), n < i → w[i]? = some b →
        ∃ region, l[i]? = some region ∧ IsFiller b region := by
  obtain ⟨t, hrun, ht, hl⟩ := h.exists_run hrest
  rcases exists_significant_of_lastMark (settled_of_atRest rfl) rfl hrun ht pos with
    ⟨hnone, hnil⟩ | ⟨v, b, y, r, r', rfl, hr, hr', -, hsig, hnil, hlast⟩
  · rw [← hl]
    exact Or.inl ⟨hnone, fun i b hb => isFiller_of_significant_eq_nil hrun hnil hb⟩
  have hy : r'.run rest y = some t := by
    rw [Reader.run, runUntil_append_of hr, runUntil_cons_of_read hr' rfl] at hrun
    exact hrun
  have hcut : l = ({} : Reader).regions (b :: y ++ rest) v ++ r'.region :: r'.regions rest y := by
    rw [← hl, regions_append hr, regions_cons_of_read hr']
  have hlen := length_regions hr
  have hat : l[v.length]? = some r'.region := by
    rw [hcut, List.getElem?_append_right (by omega), hlen, Nat.sub_self, List.getElem?_cons_zero]
  have hbehind (i : Nat) (c : Byte) (hi : v.length < i) (hc : (v ++ b :: y)[i]? = some c) :
      ∃ region, l[i]? = some region ∧ IsFiller c region := by
    obtain ⟨j, rfl⟩ := Nat.exists_eq_add_of_lt hi
    rw [List.getElem?_append_right (by omega), Nat.add_assoc, Nat.add_sub_cancel_left,
      List.getElem?_cons_succ] at hc
    rw [hcut, List.getElem?_append_right (by omega), hlen, Nat.add_assoc, Nat.add_sub_cancel_left,
      List.getElem?_cons_succ]
    exact isFiller_of_significant_eq_nil hy hnil hc
  refine Or.inr ⟨v.length, b, hlast, by simp, ?_, hbehind⟩
  rw [isSignificant] at hsig
  cases hregion : r'.region with
  | code => exact Or.inl ⟨hregion ▸ hat, by simpa [hregion] using hsig⟩
  | comment => simp [hregion] at hsig
  | string =>
    rw [hregion] at hat
    have hend : l[v.length + 1]? ≠ some .string := by
      intro hstring
      have hlt : v.length + 1 < (v ++ b :: y).length := by
        rw [← h.length_eq]
        exact (List.getElem?_eq_some_iff.mp hstring).1
      obtain ⟨region, heq, hfiller⟩ := hbehind _ _ (Nat.lt_succ_self _)
        (List.getElem?_eq_getElem hlt)
      obtain rfl := Option.some.inj (heq.symm.trans hstring)
      rcases hfiller with hfiller | ⟨hfiller, -⟩ <;> simp at hfiller
    exact Or.inr ⟨hat, h.endsInQuotes _ _ (by simp) hat hend, hend⟩

end Reader

/-! ## In a bracket -/

/-- Whether the byte at an offset of a text is a filler, where the regions are counted from
`start`. -/
def FillerAt (text : Text) (start : Nat) (regions : List Region) (i : Nat) : Prop :=
  ∃ b region, text[i]? = some b ∧ regions[i - start]? = some region ∧ IsFiller b region

/-- What is found as the last byte of code in a bracket lies in the bracket, and only blanks and
comments stand between it and the closer. It is the opener exactly when the bracket holds nothing
else; otherwise it is a byte of code that is no blank, or the quote that ends a literal. -/
theorem lastSignificant_spec {text : Text} {opener closer : Nat}
    (h : matchingBracket text opener = some closer) :
    let last := lastSignificant text opener closer
    let contents := (text.take closer).drop (opener + 1)
    opener ≤ last ∧ last < closer ∧ Balanced contents ∧
      ∀ regions, Derives (.contents false) contents regions →
        (∀ i, last < i → i < closer → FillerAt text (opener + 1) regions i) ∧
        (last = opener ↔
          ∀ i, opener < i → i < closer → FillerAt text (opener + 1) regions i) ∧
        (last ≠ opener → ∃ b, text[last]? = some b ∧
          (regions[last - (opener + 1)]? = some .code ∧ Byte.isSpace b = false ∨
            regions[last - (opener + 1)]? = some .string ∧ isQuote b = true ∧
              regions[last + 1 - (opener + 1)]? ≠ some .string)) := by
  intro last contents
  obtain ⟨before, b, w, c, rest, rfl, rfl, rfl, hb, hw⟩ := exists_of_matchingBracket_eq_some h
  have hcontents : contents = w := slice_cut before b w (c :: rest)
  have hinert : Inert (c :: rest) := inert_cons.mpr (closerOf?_spec hb).2.2.2
  have hfound : last = (({} : Reader).lastMark (before.length + 1) none (c :: rest) w).getD
      before.length :=
    congrArg (Option.getD · before.length)
      (lastCode?_eq_lastMark rfl hb ((lengthToRest_eq_iff hb).mpr hw))
  have hget (i : Nat) (hi : i < w.length) :
      (before ++ b :: (w ++ c :: rest))[before.length + 1 + i]? = w[i]? := by
    rw [List.getElem?_append_right (by omega), Nat.add_assoc, Nat.add_sub_cancel_left,
      Nat.add_comm 1,
      List.getElem?_cons_succ, List.getElem?_append_left hi]
  have hfiller (l : List Region) (i : Nat) (hi : before.length < i)
      (hi' : i < before.length + 1 + w.length)
      (h : ∀ x, w[i - (before.length + 1)]? = some x →
        ∃ region, l[i - (before.length + 1)]? = some region ∧ IsFiller x region) :
      FillerAt (before ++ b :: (w ++ c :: rest)) (before.length + 1) l i := by
    obtain ⟨j, rfl⟩ := Nat.exists_eq_add_of_le hi
    have hj : j < w.length := by omega
    rw [Nat.succ_eq_add_one, Nat.add_sub_cancel_left] at h
    obtain ⟨region, hregion, hfiller⟩ := h w[j] (List.getElem?_eq_getElem hj)
    refine ⟨w[j], region, (hget j hj).trans (List.getElem?_eq_getElem hj), ?_, hfiller⟩
    rwa [Nat.succ_eq_add_one, Nat.add_sub_cancel_left]
  rw [hcontents]
  have hbounds : before.length ≤ last ∧ last < before.length + 1 + w.length := by
    obtain ⟨l, hl⟩ := hw
    rcases hl.lastMark_cases hinert (before.length + 1) with ⟨hnone, -⟩ | ⟨n, x, hsome, hx, -, -⟩
    · rw [hfound, hnone, Option.getD_none]
      omega
    · have hn := (List.getElem?_eq_some_iff.mp hx).1
      rw [hfound, hsome, Option.getD_some]
      omega
  refine ⟨hbounds.1, hbounds.2, hw, fun l hl => ?_⟩
  rcases hl.lastMark_cases hinert (before.length + 1) with
    ⟨hnone, hall⟩ | ⟨n, x, hsome, hx, hcode, hbehind⟩
  · have hlast : last = before.length := by rw [hfound, hnone, Option.getD_none]
    have hfill (i : Nat) (hi : before.length < i) (hi' : i < before.length + 1 + w.length) :=
      hfiller l i hi hi' fun x hx => hall _ x hx
    exact ⟨fun i hi => hfill i (hlast ▸ hi), iff_of_true hlast hfill, fun hne => absurd hlast hne⟩
  · have hlast : last = before.length + 1 + n := by rw [hfound, hsome, Option.getD_some]
    have hn := (List.getElem?_eq_some_iff.mp hx).1
    rw [hlast]
    refine ⟨fun i hi hi' => hfiller l i (by omega) hi' fun x hx => hbehind _ x (by omega) hx,
      iff_of_false (by omega) fun hall => ?_, fun _ => ⟨x, (hget n hn).trans hx, ?_⟩⟩
    · obtain ⟨y, region, hy, hregion, hfill⟩ := hall (before.length + 1 + n) (by omega) (by omega)
      obtain rfl : x = y := Option.some.inj (hx.symm.trans ((hget n hn).symm.trans hy))
      rw [Nat.add_sub_cancel_left] at hregion
      rcases hcode with ⟨hcode, hspace⟩ | ⟨hstring, -⟩
      · obtain rfl := Option.some.inj (hregion.symm.trans hcode)
        rcases hfill with hfill | ⟨-, hfill⟩
        · simp at hfill
        · simp [hspace] at hfill
      · obtain rfl := Option.some.inj (hregion.symm.trans hstring)
        rcases hfill with hfill | ⟨hfill, -⟩ <;> simp at hfill
    · rw [Nat.add_sub_cancel_left, Nat.add_assoc _ n 1, Nat.add_sub_cancel_left]
      exact hcode

/-- The last code of a list can be a literal in front of a comment that holds a closer. -/
theorem lastSignificant_spec_literal_commented :
    matchingBracket (lit "[a, 'b' /* ] */]") 0 = some 15 ∧
      lastSignificant (lit "[a, 'b' /* ] */]") 0 15 = 6 ∧
      ∃ regions, Derives (.contents false) (lit "a, 'b' /* ] */") regions ∧
        (∀ i, 6 < i → i < 15 → FillerAt (lit "[a, 'b' /* ] */]") 1 regions i) ∧
        regions[5]? = some .string ∧ regions[6]? ≠ some .string := by
  have hmatch : matchingBracket (lit "[a, 'b' /* ] */]") 0 = some 15 := by decide
  have hlast : lastSignificant (lit "[a, 'b' /* ] */]") 0 15 = 6 := by decide
  obtain ⟨-, -, ⟨regions, hl⟩, hall⟩ := lastSignificant_spec hmatch
  obtain ⟨hfill, -, hcode⟩ := hall regions hl
  rw [hlast] at hfill hcode
  refine ⟨hmatch, hlast, regions, hl, hfill, ?_⟩
  obtain ⟨-, -, -, hregions⟩ := hl.exists_run (show Inert (lit "]") from inert_cons.mpr rfl)
  obtain ⟨b, hb, ⟨hplain, -⟩ | ⟨hstring, -, hend⟩⟩ := hcode (by decide)
  · rw [← hregions] at hplain
    exact absurd hplain (by decide)
  · exact ⟨hstring, hend⟩

end FlutterScaffold.Dart
