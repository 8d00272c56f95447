import FlutterScaffold.Proofs.Dart.Balance
import FlutterScaffold.Proofs.Dart.Neutral

/-!
# Literals of generated code

A reader goes over a value that is written as a literal exactly up to the closing quote, when no
further quote follows (`lengthToRest_stringLiteral`). Behind the literal it is where it was in front
of it, whatever the value. In front of the literal, looking ahead goes past its first quote only
where that quote belongs to a literal that was open already (`exists_follow_or_lengthToRest_eq`). So
brackets around a literal in code are matched in the same way for every value
(`stringLiteral_is_skipped`).
-/

namespace FlutterScaffold.Dart

open Byte (newline quote)

/-! ## Going over a literal -/

section Literal

variable {value rest : Text}

/-- A byte that needs no escape and ends no line is read as it stands. -/
theorem isVerbatim_of_not_needsEscape {b : Byte} (hb : needsEscape b = false)
    (hline : b ≠ newline) : isVerbatim b = true := by
  simp [isVerbatim, hb, hline]

/-- A value is escaped byte by byte. -/
theorem escape_cons (b : Byte) (value : Text) :
    escape (b :: value) =
      (if needsEscape b then [Byte.backslash, b] else [b]) ++ escape value := rfl

/-- The quote in front of an escaped value is not tripled. -/
theorem not_isPrefixOf_escape (hrest : rest.head? ≠ some quote) (value : Text) :
    [quote, quote].isPrefixOf (escape value ++ quote :: rest) = false := by
  rw [Bool.eq_false_iff, Ne, List.isPrefixOf_iff_prefix]
  rintro ⟨more, hmore⟩
  cases value with
  | nil =>
    obtain ⟨-, hmore⟩ := List.cons.inj hmore
    exact hrest (by rw [← hmore]; rfl)
  | cons b value =>
    rw [escape_cons] at hmore
    cases hb : needsEscape b with
    | true =>
      rw [hb] at hmore
      exact absurd (List.cons.inj hmore).1 (by decide)
    | false =>
      rw [hb] at hmore
      obtain rfl : quote = b := (List.cons.inj hmore).1
      exact absurd hb (by decide)

/-- The literal of a value opens as a plain one, as no further quote follows a pair. -/
theorem opening?_stringLiteral (hrest : rest.head? ≠ some quote) (value : Text) (afterName : Bool) :
    opening? afterName quote (escape value ++ quote :: rest) =
      some (.string quote false false, 0) := by
  rw [opening?_eq, if_neg (by decide), if_pos (by decide), stringFrame, not_isPrefixOf_escape hrest]
  rfl

/-- A reader of a literal goes over an escaped value and leaves the literal open. -/
theorem follow_escape (hvalue : newline ∉ value) (fs : List Frame) (afterName : Bool)
    (region : Region) (rest : Text) :
    ∃ afterName', (⟨.string quote false false :: fs, 0, afterName, region⟩ : Reader).follow rest
      (escape value) = some ⟨.string quote false false :: fs, 0, afterName', region⟩ := by
  induction value generalizing afterName with
  | nil => exact ⟨afterName, rfl⟩
  | cons b value ih =>
    obtain ⟨hline, hvalue⟩ := not_or.mp (List.mem_cons.not.mp hvalue)
    obtain ⟨afterName', hmore⟩ := ih hvalue (Byte.isIdentifier b)
    refine ⟨afterName', ?_⟩
    rw [escape_cons]
    cases hb : needsEscape b with
    | true =>
      exact (Reader.runUntil_cons_of_read rfl rfl).trans
        ((Reader.runUntil_cons_of_read rfl rfl).trans hmore)
    | false =>
      have hverbatim := isVerbatim_of_not_needsEscape hb (Ne.symm hline)
      have hread : (⟨.string quote false false :: fs, 0, afterName, region⟩ : Reader).read b
          (escape value ++ rest) = _ := Reader.read_verbatim rfl rfl hverbatim _
      exact (Reader.runUntil_cons_of_read hread rfl).trans hmore

/-- A quote closes the literal that it opens. -/
theorem read_closingQuote (fs : List Frame) (afterName : Bool) (region : Region) (rest : Text) :
    (⟨.string quote false false :: fs, 0, afterName, region⟩ : Reader).read quote rest =
      some ⟨fs, 0, false, region⟩ := rfl

/-- A literal stops exactly at its closing quote. -/
theorem lengthToRest_stringLiteral (hvalue : newline ∉ value) (hrest : rest.head? ≠ some quote) :
    ({} : Reader).lengthToRest (stringLiteral value ++ rest) =
      some (stringLiteral value).length := by
  have htext : stringLiteral value ++ rest = quote :: (escape value ++ quote :: rest) := by
    simp [stringLiteral]
  have hlength : (stringLiteral value).length = 1 + (escape value).length + 1 := by
    simp [stringLiteral]
    omega
  have hopen : ({} : Reader).read quote (escape value ++ quote :: rest) =
      some ⟨[.string quote false false], 0, false, .string⟩ :=
    read_opening (Or.inl rfl) (opening?_stringLiteral hrest value false)
  obtain ⟨afterName, hbody⟩ := follow_escape hvalue [] false .string (quote :: rest)
  have hclose : (⟨[.string quote false false], 0, afterName, .string⟩ : Reader).lengthToRest
      (quote :: rest) = some 1 := by
    rw [Reader.lengthToRest_cons, read_closingQuote]
    rfl
  rw [htext, hlength, Reader.lengthToRest_cons, hopen, Option.bind_some,
    Reader.lengthToRest_follow hbody, hclose]
  rfl

/-- Within a bracket, a reader is behind a literal where it was in front of it. -/
theorem follow_stringLiteral (hvalue : newline ∉ value) (hrest : rest.head? ≠ some quote)
    (closer : Byte) (fs : List Frame) (afterName : Bool) (region : Region) :
    (⟨.bracket closer :: fs, 0, afterName, region⟩ : Reader).follow rest (stringLiteral value) =
      some ⟨.bracket closer :: fs, 0, false, region⟩ := by
  have hopen : (⟨.bracket closer :: fs, 0, afterName, region⟩ : Reader).read quote
      (escape value ++ [quote] ++ rest) =
        some ⟨.string quote false false :: .bracket closer :: fs, 0, false, region⟩ := by
    rw [List.append_assoc]
    exact read_opening (Or.inr ⟨_, _, rfl⟩) (opening?_stringLiteral hrest value afterName)
  obtain ⟨afterName', hbody⟩ := follow_escape hvalue (.bracket closer :: fs) false region
    ([quote] ++ rest)
  refine (Reader.runUntil_cons_of_read hopen rfl).trans ((Reader.runUntil_append_of hbody).trans ?_)
  exact Reader.runUntil_cons_of_read (read_closingQuote _ _ _ _) rfl

end Literal

/-! ## Looking ahead at a quote -/

section Ahead

variable {w : Text}

/-- A stretch with a byte of its own in front of a quote is looked at no further than the quote. -/
theorem isPrefixOf_append_quote (hw : w ≠ []) (q : Byte) (m m' : Text) :
    [q, q].isPrefixOf (w ++ quote :: m) = [q, q].isPrefixOf (w ++ quote :: m') := by
  match w with
  | [] => exact absurd rfl hw
  | [c] => simp [List.isPrefixOf]
  | c :: d :: w => simp [List.isPrefixOf]

/-- What follows a quote does not matter to the first byte in front of it. -/
theorem head?_append_quote (w m m' : Text) :
    (w ++ quote :: m).head? = (w ++ quote :: m').head? := by
  cases w <;> rfl

/-- The quotes of a literal go up to the next quote at least, or they do not depend on what follows
it. -/
theorem stringFrame_append_quote (raw : Bool) (q : Byte) (w m m' : Text) :
    stringFrame raw q (w ++ quote :: m) = stringFrame raw q (w ++ quote :: m') ∨
      ∃ triple n, stringFrame raw q (w ++ quote :: m) = (.string q triple raw, n) ∧
        w.length ≤ n := by
  by_cases hw : w = []
  · obtain ⟨triple, n, hframe, -⟩ := stringFrame_spec raw q (w ++ quote :: m)
    exact Or.inr ⟨triple, n, hframe, by simp [hw]⟩
  · rw [stringFrame, stringFrame, isPrefixOf_append_quote hw q m m']
    exact Or.inl rfl

/-- What follows a quote matters to a raw literal only where its marks go up to the quote. -/
theorem rawString?_append_quote (w m m' : Text) :
    rawString? (w ++ quote :: m) = rawString? (w ++ quote :: m') ∨
      ∃ q triple n, rawString? (w ++ quote :: m) = some (.string q triple true, n) ∧
        w.length ≤ n := by
  cases w with
  | nil =>
    obtain ⟨triple, n, hframe, -⟩ := stringFrame_spec true quote m
    refine Or.inr ⟨quote, triple, n + 1, ?_, Nat.zero_le _⟩
    rw [List.nil_append, rawString?, if_pos (by decide), hframe]
  | cons q w =>
    rw [List.cons_append, List.cons_append, rawString?, rawString?]
    split
    · rcases stringFrame_append_quote true q w m m' with heq | ⟨triple, n, hframe, hle⟩
      · exact Or.inl (by rw [heq])
      · exact Or.inr ⟨q, triple, n + 1, by rw [hframe], Nat.succ_le_succ hle⟩
    · exact Or.inl rfl

/-- What opens in front of a stretch and a quote behind it does not depend on what follows, unless
it is a literal whose mark goes up to the quote at least. -/
theorem opening?_append_quote (a : Bool) (b : Byte) (w m m' : Text) :
    opening? a b (w ++ quote :: m) = opening? a b (w ++ quote :: m') ∨
      ∃ q triple raw n, opening? a b (w ++ quote :: m) = some (.string q triple raw, n) ∧
        w.length ≤ n := by
  rw [opening?_eq, opening?_eq]
  split
  · rw [comment?, comment?, head?_append_quote w m m']
    exact Or.inl rfl
  split
  · rcases stringFrame_append_quote false b w m m' with heq | ⟨triple, n, hframe, hle⟩
    · exact Or.inl (congrArg some heq)
    · exact Or.inr ⟨b, triple, false, n, congrArg some hframe, hle⟩
  split
  · rcases rawString?_append_quote w m m' with heq | ⟨q, triple, n, hframe, hle⟩
    · exact Or.inl heq
    · exact Or.inr ⟨q, triple, true, n, hframe, hle⟩
  · exact Or.inl rfl

end Ahead

namespace Reader

/-- Whether the next byte is read as one of code. -/
def InCode (s : Reader) : Prop := s.pending = 0 ∧ IsCode s.frames

/-- Whether a literal goes on behind a stretch, or some of its quotes are still to be passed. -/
def Overruns (s : Reader) (w : Text) : Prop :=
  w.length ≤ s.pending ∧
    (w.length = s.pending → ∃ q triple raw fs, s.frames = .string q triple raw :: fs)

section Ahead

variable {s t : Reader} {b : Byte} {rest w m m' : Text}

/-- A reader is not at rest where a literal goes on. -/
theorem Overruns.atRest_eq_false (h : s.Overruns w) : s.atRest = false := by
  obtain ⟨hle, hframes⟩ := h
  rw [Bool.eq_false_iff, Ne, atRest_iff]
  rintro ⟨hnil, hzero⟩
  obtain ⟨q, triple, raw, fs, hcons⟩ := hframes (by omega)
  simp [hnil] at hcons

/-- Bytes that are still to be passed lead into a literal, or not out of its quotes. -/
theorem Overruns.exists_follow (h : s.Overruns w) (rest : Text) :
    ∃ t, s.follow rest w = some t ∧ ¬ t.InCode := by
  induction w generalizing s with
  | nil =>
    refine ⟨s, rfl, fun hcode => ?_⟩
    obtain ⟨q, triple, raw, fs, hframes⟩ := h.2 hcode.1.symm
    rcases hcode.2 with hnil | ⟨closer, more, hbracket⟩
    · simp [hframes] at hnil
    · simp [hframes] at hbracket
  | cons b w ih =>
    obtain ⟨frames, pending, afterName, region⟩ := s
    obtain ⟨hle, hframes⟩ := h
    obtain ⟨n, rfl⟩ : ∃ n, pending = n + 1 :=
      Nat.exists_eq_succ_of_ne_zero (Nat.ne_zero_of_lt (Nat.lt_of_lt_of_le (Nat.succ_pos _) hle))
    have hpassed : (⟨frames, n, Byte.isIdentifier b, region⟩ : Reader).Overruns w :=
      ⟨Nat.le_of_succ_le_succ hle, fun heq => hframes (congrArg Nat.succ heq)⟩
    obtain ⟨t, ht, hnot⟩ := ih hpassed
    refine ⟨t, ?_, hnot⟩
    exact (runUntil_cons_of_read rfl hpassed.atRest_eq_false).trans ht

/-- The step over a byte of a literal does not depend on what follows the next quote, unless that
quote belongs to the literal. Either the tripled quotes end here, with two of them to be passed, or
the literal goes on. -/
theorem readString_append_quote {q : Byte} {triple raw : Bool} {fs : List Frame}
    (hf : s.frames = .string q triple raw :: fs) (b : Byte) (w m m' : Text) :
    s.readString q triple raw b (w ++ quote :: m) = s.readString q triple raw b (w ++ quote :: m') ∨
      ∃ t, s.readString q triple raw b (w ++ quote :: m) = some t ∧ t.Overruns w := by
  by_cases hw : w = []
  · subst hw
    rw [readString, readString, head?_append_quote [] m m']
    split
    · exact Or.inl rfl
    split
    · exact Or.inl rfl
    split
    · exact Or.inl rfl
    split
    · split
      · exact Or.inl rfl
      · refine Or.inr ?_
        split
        · exact ⟨_, rfl, Nat.zero_le _, fun heq => absurd heq (by simp [leave])⟩
        · exact ⟨s, rfl, Nat.zero_le _, fun _ => ⟨q, triple, raw, fs, hf⟩⟩
    · exact Or.inl rfl
  · simp only [readString, head?_append_quote w m m', isPrefixOf_append_quote hw q m m', true_or]

/-- What follows a quote matters to a byte of code only where a literal is opened up to the
quote. -/
theorem readCode_append_quote {fs : List Frame} (hcode : IsCode fs) (afterName : Bool)
    (region : Region) (b : Byte) (w m m' : Text) :
    (⟨fs, 0, afterName, region⟩ : Reader).read b (w ++ quote :: m) =
        (⟨fs, 0, afterName, region⟩ : Reader).read b (w ++ quote :: m') ∨
      ∃ t, (⟨fs, 0, afterName, region⟩ : Reader).read b (w ++ quote :: m) = some t ∧
        t.Overruns w := by
  rcases opening?_append_quote afterName b w m m' with heq | ⟨q, triple, raw, n, ho, hle⟩
  · rcases hcode with rfl | ⟨closer, more, rfl⟩ <;> simp only [read, heq, true_or]
  · exact Or.inr ⟨_, read_opening hcode ho, hle, fun _ => ⟨q, triple, raw, fs, rfl⟩⟩

/-- A step does not depend on what follows the next quote, unless that quote belongs to a literal
that is open behind the step or has just been closed. -/
theorem read_append_quote (s : Reader) (b : Byte) (w m m' : Text) :
    s.read b (w ++ quote :: m) = s.read b (w ++ quote :: m') ∨
      ∃ t, s.read b (w ++ quote :: m) = some t ∧ t.Overruns w := by
  obtain ⟨frames, pending, afterName, region⟩ := s
  cases pending with
  | succ n => exact Or.inl rfl
  | zero =>
    match frames with
    | [] => exact readCode_append_quote (Or.inl rfl) afterName region b w m m'
    | .bracket closer :: fs =>
      exact readCode_append_quote (Or.inr ⟨closer, fs, rfl⟩) afterName region b w m m'
    | .lineComment :: fs => exact Or.inl rfl
    | .blockComment :: fs => simp only [read, readBlock, head?_append_quote w m m', true_or]
    | .string q triple raw :: fs => exact readString_append_quote rfl b w m m'

/-- The distance to rest is counted byte by byte. -/
theorem lengthToRest_cons_of_read (h : s.read b rest = some t) :
    s.lengthToRest (b :: rest) =
      if t.atRest then some 1 else (t.lengthToRest rest).map (· + 1) := by
  rw [lengthToRest_cons, h, Option.bind_some]

/-- Up to a quote that is read in code, or up to where it stops before, a reader does the same
whatever follows the quote. A step that looks as far as the quote is busy up to it, and the quote is
not read in code then. -/
theorem exists_follow_or_lengthToRest_eq (m' : Text)
    (hcode : ∀ t, s.follow (quote :: m) w = some t → t.InCode) :
    (∃ t, s.follow (quote :: m) w = some t ∧ s.follow (quote :: m') w = some t) ∨
      (s.lengthToRest (w ++ quote :: m') = s.lengthToRest (w ++ quote :: m) ∧
        ∀ n, s.lengthToRest (w ++ quote :: m) = some n → n ≤ w.length) := by
  induction w generalizing s with
  | nil => exact Or.inl ⟨s, rfl, rfl⟩
  | cons b w ih =>
    rcases read_append_quote s b w m m' with heq | ⟨t, ht, hover⟩
    · rw [List.cons_append, List.cons_append]
      cases hread : s.read b (w ++ quote :: m) with
      | none =>
        rw [lengthToRest_cons, lengthToRest_cons, ← heq, hread]
        exact Or.inr ⟨rfl, fun n hn => absurd hn (by simp)⟩
      | some r =>
        rw [hread] at heq
        have hlength := lengthToRest_cons_of_read hread
        have hlength' := lengthToRest_cons_of_read heq.symm
        cases hrest : r.atRest with
        | true =>
          rw [hrest, if_pos rfl] at hlength hlength'
          rw [hlength, hlength']
          exact Or.inr ⟨rfl, fun n hn => Option.some.inj hn ▸ Nat.succ_pos _⟩
        | false =>
          have hfollow := runUntil_cons_of_read hread hrest
          have hfollow' := runUntil_cons_of_read heq.symm hrest
          rw [follow, follow, hfollow, hfollow']
          rw [follow, hfollow] at hcode
          rw [hrest, if_neg Bool.false_ne_true] at hlength hlength'
          rw [hlength, hlength']
          rcases ih hcode with hreached | ⟨hsame, hle⟩
          · exact Or.inl hreached
          · refine Or.inr ⟨by rw [hsame], fun n hn => ?_⟩
            obtain ⟨k, hk, rfl⟩ := Option.map_eq_some_iff.mp hn
            exact Nat.succ_le_succ (hle k hk)
    · obtain ⟨t', ht', hnot⟩ := hover.exists_follow (quote :: m)
      exact absurd (hcode t' ((runUntil_cons_of_read ht hover.atRest_eq_false).trans ht')) hnot

/-- A run does not end where it is to stop. -/
theorem stops_runUntil {stops : Reader → Bool} (hs : stops s = false)
    (h : s.runUntil stops rest w = some t) : stops t = false := by
  induction w generalizing s with
  | nil => exact Option.some.inj h ▸ hs
  | cons b w ih =>
    obtain ⟨r, -, hr, h⟩ := exists_of_runUntil_cons h
    exact ih hr h

end Ahead

end Reader

/-! ## Another value -/

/-- Where a place in front of a stretch at `start` or behind it goes when the stretch gets another
length. -/
def shifted (start old new place : Nat) : Nat :=
  if place < start then place else start + new + (place - (start + old))

/-- Whether a text stands in code behind `before`, as it is read from the bracket at `opener`; this
says nothing where the bracket is closed before, or does not stand there. -/
def StandsInCode (before : Text) (opener : Nat) (t : Text) : Prop :=
  ∀ b w c s, before.drop opener = b :: w → closerOf? b = some c →
    (Reader.inside c).follow t w = some s → s.InCode

section Values

variable {before value value' rest w t : Text} {s : Reader} {opener : Nat}

/-- A place in front of the stretch stays. -/
theorem shifted_of_lt {start old new place : Nat} (h : place < start) :
    shifted start old new place = place := if_pos h

/-- A place behind the stretch moves with it. -/
theorem shifted_of_le {start old new place : Nat} (h : start ≤ place) :
    shifted start old new (old + place) = new + place := by
  rw [shifted, if_neg (by omega)]
  omega

/-- Places move alike in a longer text. -/
theorem add_shifted (n start old new place : Nat) :
    n + shifted start old new place = shifted (n + start) old new (n + place) := by
  simp only [shifted, Nat.add_lt_add_iff_left]
  split <;> omega

/-- A reader of code comes to rest behind a literal as it does where it goes on without one. -/
theorem lengthToRest_append_value (hvalue : newline ∉ value) (hrest : rest.head? ≠ some quote)
    {closer : Byte} {fs : List Frame} {afterName : Bool} {region : Region}
    (h : s.follow (stringLiteral value ++ rest) w =
      some ⟨.bracket closer :: fs, 0, afterName, region⟩) :
    s.lengthToRest (w ++ (stringLiteral value ++ rest)) =
      ((⟨.bracket closer :: fs, 0, false, region⟩ : Reader).lengthToRest rest).map
        fun n => (stringLiteral value).length + (n + w.length) := by
  have hliteral := follow_stringLiteral hvalue hrest closer fs afterName region
  rw [Reader.lengthToRest_follow h, Reader.lengthToRest_follow hliteral, Option.map_map]
  refine Option.map_congr fun n _ => ?_
  rw [Function.comp_apply]
  omega

/-- A reader that meets a literal in code comes to rest at the same place for every value. -/
theorem lengthToRest_value (hvalue : newline ∉ value) (hvalue' : newline ∉ value')
    (hrest : rest.head? ≠ some quote) (hbusy : s.atRest = false)
    (hcode : ∀ t, s.follow (stringLiteral value ++ rest) w = some t → t.InCode) :
    s.lengthToRest (w ++ (stringLiteral value' ++ rest)) =
      (s.lengthToRest (w ++ (stringLiteral value ++ rest))).map
        (shifted (w.length + 1) (stringLiteral value).length (stringLiteral value').length) := by
  rcases Reader.exists_follow_or_lengthToRest_eq (escape value' ++ [quote] ++ rest) hcode with
    ⟨t, ht, ht'⟩ | ⟨hsame, hle⟩
  · obtain ⟨hpending, hcode⟩ := hcode t ht
    have hstill := Reader.stops_runUntil hbusy ht
    obtain ⟨frames, pending, afterName, region⟩ := t
    obtain rfl : pending = 0 := hpending
    rcases hcode with rfl | ⟨closer, fs, rfl⟩
    · exact absurd hstill (by simp [Reader.atRest])
    rw [lengthToRest_append_value hvalue hrest ht, lengthToRest_append_value hvalue' hrest ht',
      Option.map_map]
    refine Option.map_congr fun n hn => ?_
    have hpos := (Reader.lengthToRest_bounds hn).1
    exact (shifted_of_le (by omega)).symm
  · have hstay : s.lengthToRest (w ++ (stringLiteral value' ++ rest)) =
        s.lengthToRest (w ++ (stringLiteral value ++ rest)) := hsame
    rw [hstay]
    cases hn : s.lengthToRest (w ++ (stringLiteral value ++ rest)) with
    | none => rfl
    | some n => rw [Option.map_some, shifted_of_lt (Nat.lt_succ_of_le (hle n hn))]

/-- Brackets around a literal in code are matched in the same way for every value. -/
theorem matchingBracket_value (hvalue : newline ∉ value) (hvalue' : newline ∉ value')
    (hrest : rest.head? ≠ some quote) (hopener : opener < before.length)
    (hcode : StandsInCode before opener (stringLiteral value ++ rest)) :
    matchingBracket (before ++ (stringLiteral value' ++ rest)) opener =
      (matchingBracket (before ++ (stringLiteral value ++ rest)) opener).map
        (shifted before.length (stringLiteral value).length (stringLiteral value').length) := by
  obtain ⟨b, w, hdrop⟩ := List.exists_cons_of_length_pos
    (show 0 < (before.drop opener).length by rw [List.length_drop]; omega)
  have hlength : opener + (w.length + 1) = before.length := by
    have h := congrArg List.length hdrop
    rw [List.length_drop, List.length_cons] at h
    omega
  have htext (value : Text) : (before ++ (stringLiteral value ++ rest)).drop opener =
      b :: (w ++ (stringLiteral value ++ rest)) := by
    rw [List.drop_append_of_le_length hopener.le, hdrop, List.cons_append]
  simp only [matchingBracket, htext]
  cases hc : closerOf? b with
  | none => rfl
  | some c =>
    have hbusy : (Reader.inside c).atRest = false := rfl
    rw [Option.bind_some, Option.bind_some,
      lengthToRest_value hvalue hvalue' hrest hbusy fun s hs => hcode b w c s hdrop hc hs,
      Option.map_map, Option.map_map, ← hlength]
    exact Option.map_congr fun n _ => add_shifted opener (w.length + 1) _ _ n

/-- Brackets behind a literal are matched in the same way for every value. -/
theorem matchingBracket_behind_value (value value' : Text) (h : before.length ≤ opener) :
    matchingBracket (before ++ (stringLiteral value' ++ rest))
        ((stringLiteral value').length + opener) =
      (matchingBracket (before ++ (stringLiteral value ++ rest))
        ((stringLiteral value).length + opener)).map
          (shifted before.length (stringLiteral value).length (stringLiteral value').length) := by
  rw [matchingBracket_insert h, matchingBracket_insert h, Option.map_map]
  refine Option.map_congr fun closer hcloser => ?_
  have hbounds := matchingBracket_bounds hcloser
  exact (shifted_of_le (by omega)).symm

/-- What stands in code of a document stands in code for each bracket of its code. -/
theorem standsInCode_of_run {s' : Reader}
    (hopener : ({} : Reader).run (before.drop opener ++ t) (before.take opener) = some s)
    (hs : s.atRest = true) (hplace : ({} : Reader).run t before = some s')
    (hs' : s'.atRest = true) : StandsInCode before opener t := by
  intro b w c r hdrop hc hr
  obtain ⟨hframes, hpending⟩ := Reader.atRest_iff.mp hs
  obtain ⟨hframes', hpending'⟩ := Reader.atRest_iff.mp hs'
  have hread : s.read b (w ++ t) = some {} := by
    obtain ⟨frames, pending, afterName, region⟩ := s
    obtain rfl : frames = [] := hframes
    obtain rfl : pending = 0 := hpending
    exact read_opener (Or.inl rfl) hc
  have hbehind : ({} : Reader).run t w = some s' := by
    rw [hdrop] at hopener
    have hreach : ({} : Reader).run t (before.take opener ++ b :: w) = ({} : Reader).run t w :=
      (Reader.runUntil_append_of hopener).trans (Reader.runUntil_cons_of_read hread rfl)
    rw [← hreach, ← hdrop, List.take_append_drop]
    exact hplace
  obtain ⟨s'', hs'', outer, region, hne, hbracket, rfl⟩ := (within_inside c).follow hr
  obtain rfl := Option.some.inj (hbehind.symm.trans hs'')
  refine ⟨hpending', Or.inr ?_⟩
  obtain ⟨frame, more, rfl⟩ := List.exists_cons_of_ne_nil hne
  obtain ⟨closer, rfl⟩ := hbracket frame List.mem_cons_self
  exact ⟨closer, more, by rw [hframes', List.nil_append]⟩

end Values

/-- A literal of a value is read exactly up to its closing quote, and it spells the value. So no
byte of the value has a say in how brackets match around the literal, where it stands in code, or
behind it. -/
theorem stringLiteral_is_skipped {value rest : Text} (hvalue : newline ∉ value)
    (hrest : rest.head? ≠ some quote) :
    ({} : Reader).lengthToRest (stringLiteral value ++ rest) = some (stringLiteral value).length ∧
      unescape (stringLiteral value).tail.dropLast = value ∧
      ∀ before value' opener, newline ∉ value' →
        let moved :=
          shifted before.length (stringLiteral value).length (stringLiteral value').length
        (opener < before.length → StandsInCode before opener (stringLiteral value ++ rest) →
          matchingBracket (before ++ (stringLiteral value' ++ rest)) opener =
            (matchingBracket (before ++ (stringLiteral value ++ rest)) opener).map moved) ∧
        (before.length ≤ opener →
          matchingBracket (before ++ (stringLiteral value' ++ rest))
              ((stringLiteral value').length + opener) =
            (matchingBracket (before ++ (stringLiteral value ++ rest))
              ((stringLiteral value).length + opener)).map moved) := by
  refine ⟨lengthToRest_stringLiteral hvalue hrest, ?_, fun before value' opener hvalue' => ⟨?_, ?_⟩⟩
  · have hbody : (stringLiteral value).tail.dropLast = escape value := List.dropLast_concat
    rw [hbody, unescape_escape]
  · exact fun hopener hcode => matchingBracket_value hvalue hvalue' hrest hopener hcode
  · exact fun hopener => matchingBracket_behind_value value value' hopener

/-- A value with a quote, an interpolation, brackets, a comment and a backslash at its end. -/
theorem stringLiteral_is_skipped_marks :
    let value := lit "it's $\x7b[(/* \\"
    let before := lit "f(r'[', [g("
    let rest := lit "), '']); // '"
    ({} : Reader).lengthToRest (stringLiteral value ++ rest) = some 18 ∧
      unescape (stringLiteral value).tail.dropLast = value ∧
      matchingBracket (before ++ (stringLiteral value ++ rest)) 1 = some 35 ∧
      matchingBracket (before ++ (stringLiteral [] ++ rest)) 1 = some 19 := by
  intro value before rest
  have hvalue : newline ∉ value := by decide
  have hrest : rest.head? ≠ some quote := by decide
  obtain ⟨hlength, hspells, hmatch⟩ := stringLiteral_is_skipped hvalue hrest
  have hfront : ({} : Reader).run (before.drop 1 ++ (stringLiteral value ++ rest))
      (before.take 1) = some { afterName := true } := rfl
  have hplace : ({} : Reader).run (stringLiteral value ++ rest) before = some {} := rfl
  have hcode := standsInCode_of_run hfront rfl hplace rfl
  have hopener : matchingBracket (before ++ (stringLiteral value ++ rest)) 1 = some 35 := by decide
  refine ⟨hlength, hspells, hopener, ?_⟩
  rw [(hmatch before [] 1 List.not_mem_nil).1 (by decide) hcode, hopener]
  rfl

end FlutterScaffold.Dart
