import FlutterScaffold.Proofs.Text.Bytes
import FlutterScaffold.Dart.Lexis

/-!
# Reading a stretch of source

A reader looks at most three bytes ahead, and only for the bytes of a delimiter. So what it does
over a stretch of text does not depend on what follows, as long as no delimiter goes over the end of
the stretch (`run_inert`). Every reader that comes from a state without open delimiters is coherent:
the bytes of a delimiter that are still to be passed are really there.
-/

namespace FlutterScaffold.Dart

/-- The bytes that delimiters go on with: quotes, the marks of comments and the brace of an
interpolation. -/
def isDelimiter (b : Byte) : Bool :=
  isQuote b || b == Byte.slash || b == byte '*' || b == byte '{'

/-- Text that does not go on with a delimiter. -/
def Inert (t : Text) : Prop := ∀ b ∈ t.head?, isDelimiter b = false

theorem Inert.head?_ne {t : Text} (h : Inert t) {b : Byte} (hb : isDelimiter b = true) :
    t.head? ≠ some b := fun hhead => by
  rw [h b hhead] at hb
  exact absurd hb (by decide)

/-- A text is inert exactly when its first byte starts no delimiter. -/
theorem inert_cons {b : Byte} {t : Text} : Inert (b :: t) ↔ isDelimiter b = false := by
  simp [Inert]

/-- Two more quotes are found in front of an end only when they do not go over it. -/
private theorem isPrefixOf_inert {q : Byte} (hq : isQuote q = true) {w y z : Text} (hz : Inert z) :
    [q, q].isPrefixOf (w ++ z) = [q, q].isPrefixOf (w ++ y) ∨
      ([q, q].isPrefixOf (w ++ y) = true ∧ w.length < 2) := by
  have hd : isDelimiter q = true := by simp [isDelimiter, hq]
  have hone (more : Text) : (q :: more).isPrefixOf z = false := by
    cases z with
    | nil => rfl
    | cons c z =>
      have hne : (q == c) = false := beq_eq_false_iff_ne.mpr fun heq =>
        hz.head?_ne hd (by rw [heq]; rfl)
      rw [List.isPrefixOf, hne, Bool.false_and]
  match w with
  | [] =>
    cases hy : [q, q].isPrefixOf y with
    | false => exact Or.inl ((hone [q]).trans hy.symm)
    | true => exact Or.inr ⟨hy, by decide⟩
  | [c] =>
    have hcons (t : Text) : [q, q].isPrefixOf ([c] ++ t) = (q == c && [q].isPrefixOf t) := rfl
    rw [hcons, hcons, hone []]
    cases hy : (q == c && [q].isPrefixOf y) with
    | false => exact Or.inl (Bool.and_false _)
    | true => exact Or.inr ⟨rfl, Nat.lt_succ_self 1⟩
  | c :: d :: w => exact Or.inl rfl

/-- The comment that a slash opens. -/
def comment? (rest : Text) : Option (Frame × Nat) :=
  if rest.head? = some Byte.slash then some (.lineComment, 1)
  else if rest.head? = some (byte '*') then some (.blockComment, 1)
  else none

/-- The raw literal that a letter opens. -/
def rawString? : Text → Option (Frame × Nat)
  | [] => none
  | q :: more =>
    if isQuote q then
      some ((stringFrame true q more).1, (stringFrame true q more).2 + 1)
    else none

/-- What opens at a byte: a comment at a slash, a literal at a quote, a raw literal at an `r` that
ends no name. -/
theorem opening?_eq (afterName : Bool) (b : Byte) (rest : Text) : opening? afterName b rest =
    if b = Byte.slash then comment? rest
    else if isQuote b then some (stringFrame false b rest)
    else if b = byte 'r' && !afterName then rawString? rest
    else none := by
  cases rest <;> rfl

/-- A slash opens a comment together with the byte behind it. -/
theorem comment?_eq_some {rest : Text} {frame : Frame} {n : Nat}
    (h : comment? rest = some (frame, n)) : n = 1 ∧
      ((rest.head? = some Byte.slash ∧ frame = .lineComment) ∨
        (rest.head? = some (byte '*') ∧ frame = .blockComment)) := by
  rw [comment?] at h
  split_ifs at h with hslash hstar
  · obtain ⟨rfl, rfl⟩ := Prod.mk.inj (Option.some.inj h)
    exact ⟨rfl, Or.inl ⟨hslash, rfl⟩⟩
  · obtain ⟨rfl, rfl⟩ := Prod.mk.inj (Option.some.inj h)
    exact ⟨rfl, Or.inr ⟨hstar, rfl⟩⟩

/-- The letter of a raw literal stands in front of a quote, which belongs to the opening mark. -/
theorem rawString?_eq_some {rest : Text} {frame : Frame} {n : Nat}
    (h : rawString? rest = some (frame, n)) : ∃ q more m, rest = q :: more ∧ isQuote q = true ∧
      stringFrame true q more = (frame, m) ∧ n = m + 1 := by
  cases rest with
  | nil => simp [rawString?] at h
  | cons q more =>
    rw [rawString?] at h
    split_ifs at h with hq
    obtain ⟨rfl, rfl⟩ := Prod.mk.inj (Option.some.inj h)
    exact ⟨q, more, _, rfl, hq, rfl, rfl⟩

/-- What opens in code is a comment, a literal or a raw literal. -/
theorem opening?_eq_some {afterName : Bool} {b : Byte} {rest : Text} {frame : Frame} {n : Nat}
    (h : opening? afterName b rest = some (frame, n)) :
    (b = Byte.slash ∧ comment? rest = some (frame, n)) ∨
      (isQuote b = true ∧ stringFrame false b rest = (frame, n)) ∨
      (b = byte 'r' ∧ afterName = false ∧ rawString? rest = some (frame, n)) := by
  rw [opening?_eq] at h
  split_ifs at h with hslash hquote hraw
  · exact Or.inl ⟨hslash, h⟩
  · exact Or.inr (Or.inl ⟨hquote, Option.some.inj h⟩)
  · simp only [Bool.and_eq_true, decide_eq_true_eq, Bool.not_eq_true'] at hraw
    exact Or.inr (Or.inr ⟨hraw.1, hraw.2, h⟩)

/-- A byte that is no slash, no quote and no `r` in front of a quote opens nothing. -/
theorem opening?_eq_none {afterName : Bool} {b : Byte} {rest : Text} (hslash : b ≠ Byte.slash)
    (hquote : isQuote b = false) (hraw : b = byte 'r' → ∀ q ∈ rest.head?, isQuote q = false) :
    opening? afterName b rest = none := by
  refine Option.eq_none_iff_forall_ne_some.mpr fun ⟨frame, n⟩ h => ?_
  rcases opening?_eq_some h with ⟨hb, -⟩ | ⟨hb, -⟩ | ⟨hb, -, h⟩
  · exact hslash hb
  · simp [hquote] at hb
  · obtain ⟨q, more, -, rfl, hq, -⟩ := rawString?_eq_some h
    simp [hraw hb q rfl] at hq

/-- Whether a comment opens is told by the stretch, or its mark goes over the end of the stretch. -/
private theorem comment?_inert {w y z : Text} (hz : Inert z) :
    comment? (w ++ z) = comment? (w ++ y) ∨
      ∃ frame n, comment? (w ++ y) = some (frame, n) ∧ w.length < n := by
  cases w with
  | cons c w => exact Or.inl rfl
  | nil =>
    have hslash : z.head? ≠ some Byte.slash := hz.head?_ne (by decide)
    have hstar : z.head? ≠ some (byte '*') := hz.head?_ne (by decide)
    have hnone : comment? z = none := by rw [comment?, if_neg hslash, if_neg hstar]
    cases hy : comment? y with
    | none => exact Or.inl (hnone.trans hy.symm)
    | some opened =>
      refine Or.inr ⟨opened.1, opened.2, hy, ?_⟩
      rw [(comment?_eq_some hy).1]
      exact Nat.one_pos

/-- What literal opens is told by the stretch, or its quotes go over the end of the stretch. -/
private theorem stringFrame_inert {raw : Bool} {q : Byte} (hq : isQuote q = true) {w y z : Text}
    (hz : Inert z) : stringFrame raw q (w ++ z) = stringFrame raw q (w ++ y) ∨
      w.length < (stringFrame raw q (w ++ y)).2 := by
  rcases isPrefixOf_inert hq hz (w := w) (y := y) with h | ⟨h, hlen⟩
  · exact Or.inl (by rw [stringFrame, stringFrame, h])
  · exact Or.inr (by rwa [stringFrame, if_pos h])

/-- Whether a raw literal opens is told by the stretch, or its quotes go over the end of the
stretch. -/
private theorem rawString?_inert {w y z : Text} (hz : Inert z) :
    rawString? (w ++ z) = rawString? (w ++ y) ∨
      ∃ frame n, rawString? (w ++ y) = some (frame, n) ∧ w.length < n := by
  cases w with
  | nil =>
    have hnone : rawString? z = none := by
      cases z with
      | nil => rfl
      | cons c z =>
        have hc : isQuote c = false := by
          have hd := inert_cons.mp hz
          simp only [isDelimiter, Bool.or_eq_false_iff] at hd
          exact hd.1.1.1
        simp [rawString?, hc]
    cases y with
    | nil => exact Or.inl hnone
    | cons q y =>
      by_cases hq : isQuote q = true
      · exact Or.inr ⟨_, _, if_pos hq, Nat.succ_pos _⟩
      · exact Or.inl (hnone.trans (if_neg hq).symm)
  | cons q w =>
    by_cases hq : isQuote q = true
    · have hopen (t : Text) : rawString? (q :: w ++ t) =
          some ((stringFrame true q (w ++ t)).1, (stringFrame true q (w ++ t)).2 + 1) := if_pos hq
      rw [hopen, hopen]
      rcases stringFrame_inert hq hz (w := w) (y := y) with h | h
      · exact Or.inl (by rw [h])
      · exact Or.inr ⟨_, _, rfl, Nat.succ_lt_succ h⟩
    · exact Or.inl ((if_neg hq).trans (if_neg hq).symm)

/-- Whether a construct starts at a byte is told by the stretch alone, or its delimiter goes over
the end of the stretch. -/
private theorem opening?_inert (afterName : Bool) (b : Byte) {w y z : Text} (hz : Inert z) :
    opening? afterName b (w ++ z) = opening? afterName b (w ++ y) ∨
      ∃ frame n, opening? afterName b (w ++ y) = some (frame, n) ∧ w.length < n := by
  rw [opening?_eq, opening?_eq]
  by_cases hb : b = Byte.slash
  · simp only [hb, if_true]
    exact comment?_inert hz
  · by_cases hq : isQuote b = true
    · simp only [hb, hq, if_true, if_false]
      rcases stringFrame_inert hq hz (w := w) (y := y) with h | h
      · exact Or.inl (by rw [h])
      · exact Or.inr ⟨_, _, rfl, h⟩
    · simp only [hb, hq, Bool.false_eq_true, if_false]
      split
      · exact rawString?_inert hz
      · exact Or.inl rfl

/-! ## Steps of a reader -/

/-- Whether constructs are those of plain code: none is open, or the innermost is a bracket. -/
def IsCode (frames : List Frame) : Prop :=
  frames = [] ∨ ∃ closer more, frames = .bracket closer :: more

/-- What a step over byte `b` with `rest` behind it does to the open constructs and to the number of
bytes that a delimiter still has. -/
inductive Move (afterName : Bool) (b : Byte) (rest : Text) :
    List Frame → Nat → List Frame → Nat → Prop where
  | pass (fs : List Frame) (n : Nat) : Move afterName b rest fs (n + 1) fs n
  | endLine (fs : List Frame) : b = Byte.newline → Move afterName b rest (.lineComment :: fs) 0 fs 0
  | inLine (fs : List Frame) : b ≠ Byte.newline →
      Move afterName b rest (.lineComment :: fs) 0 (.lineComment :: fs) 0
  | nest (fs : List Frame) : b = Byte.slash → rest.head? = some (byte '*') →
      Move afterName b rest (.blockComment :: fs) 0 (.blockComment :: .blockComment :: fs) 1
  | endBlock (fs : List Frame) : b = byte '*' → rest.head? = some Byte.slash →
      Move afterName b rest (.blockComment :: fs) 0 fs 1
  | inBlock (fs : List Frame) : Move afterName b rest (.blockComment :: fs) 0
    (.blockComment :: fs) 0
  | escape (q : Byte) (triple : Bool) (fs : List Frame) : b = Byte.backslash →
      Move afterName b rest (.string q triple false :: fs) 0 (.string q triple false :: fs) 1
  | interpolate (q : Byte) (triple : Bool) (fs : List Frame) : b = byte '$' →
      rest.head? = some (byte '{') → Move afterName b rest (.string q triple false :: fs) 0
        (.bracket (byte '}') :: .string q triple false :: fs) 1
  | close (raw : Bool) (fs : List Frame) : Move afterName b rest (.string b false raw :: fs) 0 fs 0
  | closeTriple (raw : Bool) (fs : List Frame) : [b, b].isPrefixOf rest = true →
      Move afterName b rest (.string b true raw :: fs) 0 fs 2
  | inString (q : Byte) (triple raw : Bool) (fs : List Frame) :
      Move afterName b rest (.string q triple raw :: fs) 0 (.string q triple raw :: fs) 0
  | enter (frame : Frame) (n : Nat) (fs : List Frame) : IsCode fs →
      opening? afterName b rest = some (frame, n) → Move afterName b rest fs 0 (frame :: fs) n
  | push (inner closer : Byte) (fs : List Frame) : opening? afterName b rest = none →
      closerOf? b = some inner → Move afterName b rest (.bracket closer :: fs) 0
        (.bracket inner :: .bracket closer :: fs) 0
  | pop (fs : List Frame) : opening? afterName b rest = none → isCloser b = true →
      Move afterName b rest (.bracket b :: fs) 0 fs 0
  | code (fs : List Frame) : IsCode fs → opening? afterName b rest = none →
      Move afterName b rest fs 0 fs 0

/-- A step over a byte of a string literal that is not refused is one of the moves. -/
private theorem Reader.readString_move {s t : Reader} {q b : Byte} {triple raw : Bool}
    {fs : List Frame} {rest : Text} (afterName : Bool) (hf : s.frames = .string q triple raw :: fs)
    (hp : s.pending = 0) (h : s.readString q triple raw b rest = some t) :
    Move afterName b rest (.string q triple raw :: fs) 0 t.frames t.pending := by
  unfold readString at h
  split_ifs at h with hescape hline hdollar hquote hsingle hrest <;>
    obtain rfl := Option.some.inj h
  · simp only [Bool.and_eq_true, Bool.not_eq_true', decide_eq_true_eq] at hescape
    obtain ⟨rfl, hb⟩ := hescape
    simp only [hf]
    exact .escape _ _ _ hb
  · simp only [Bool.and_eq_true, Bool.not_eq_true', decide_eq_true_eq] at hdollar
    obtain ⟨⟨rfl, hb⟩, hbrace⟩ := hdollar
    simp only [enter, hf]
    exact .interpolate _ _ _ hb hbrace
  · obtain rfl : triple = false := by simpa using hsingle
    subst hquote
    simp only [leave, hf, List.tail_cons]
    exact .close _ _
  · obtain rfl : triple = true := by simpa using hsingle
    subst hquote
    simp only [leave, hf, List.tail_cons]
    exact .closeTriple _ _ hrest
  · rw [hf, hp]
    exact .inString _ _ _ _
  · rw [hf, hp]
    exact .inString _ _ _ _

/-- A step over a byte of a block comment is one of the moves. -/
private theorem Reader.readBlock_move {s : Reader} {b : Byte} {fs : List Frame} {rest : Text}
    (afterName : Bool) (hf : s.frames = .blockComment :: fs) (hp : s.pending = 0) :
    Move afterName b rest (.blockComment :: fs) 0 (s.readBlock b rest).frames
      (s.readBlock b rest).pending := by
  unfold readBlock
  split_ifs with hnest hend
  · simp only [Bool.and_eq_true, decide_eq_true_eq] at hnest
    simp only [enter, hf]
    exact .nest _ hnest.1 hnest.2
  · simp only [Bool.and_eq_true, decide_eq_true_eq] at hend
    simp only [leave, hf, List.tail_cons]
    exact .endBlock _ hend.1 hend.2
  · rw [hf, hp]
    exact .inBlock _

/-- A byte of code inside a bracket opens another one, closes this one, or is no bracket. -/
theorem Reader.readBracketed_eq_some {s t : Reader} {closer b : Byte}
    (h : s.readBracketed closer b = some t) :
    (∃ inner, closerOf? b = some inner ∧ t = s.enter (.bracket inner) 0) ∨
      (closerOf? b = none ∧ isCloser b = true ∧ b = closer ∧ t = s.leave 0) ∨
      (closerOf? b = none ∧ isCloser b = false ∧ t = s) := by
  rw [readBracketed] at h
  cases hopen : closerOf? b with
  | some inner =>
    rw [hopen] at h
    exact Or.inl ⟨inner, rfl, (Option.some.inj h).symm⟩
  | none =>
    rw [hopen] at h
    simp only at h
    split_ifs at h with hclose hb
    · exact Or.inr (Or.inl ⟨rfl, hclose, hb, (Option.some.inj h).symm⟩)
    · exact Or.inr (Or.inr ⟨rfl, Bool.not_eq_true _ ▸ hclose, (Option.some.inj h).symm⟩)

/-- A step over a byte of code inside a bracket that is not refused is one of the moves. -/
private theorem Reader.readBracketed_move {s t : Reader} {closer b : Byte} {fs : List Frame}
    {rest : Text} {afterName : Bool} (hf : s.frames = .bracket closer :: fs) (hp : s.pending = 0)
    (ho : opening? afterName b rest = none) (h : s.readBracketed closer b = some t) :
    Move afterName b rest (.bracket closer :: fs) 0 t.frames t.pending := by
  rcases readBracketed_eq_some h with ⟨inner, hinner, rfl⟩ | ⟨-, hcloser, rfl, rfl⟩ | ⟨-, -, rfl⟩
  · simp only [enter, hf]
    exact .push _ _ _ ho hinner
  · simp only [leave, hf, List.tail_cons]
    exact .pop _ ho hcloser
  · rw [hf, hp]
    exact .code _ (Or.inr ⟨_, _, rfl⟩) ho

/-- Every step that is not refused is one of the moves. The innermost construct says which step it
is; in code, what opens at the byte comes first. -/
theorem Reader.read_move {s t : Reader} {b : Byte} {rest : Text} (h : s.read b rest = some t) :
    Move s.afterName b rest s.frames s.pending t.frames t.pending := by
  obtain ⟨frames, pending, afterName, region⟩ := s
  cases pending with
  | succ n =>
    obtain rfl := Option.some.inj h
    exact .pass _ _
  | zero =>
    cases frames with
    | nil =>
      simp only [read] at h
      cases ho : opening? afterName b rest with
      | some opened =>
        rw [ho] at h
        obtain rfl := Option.some.inj h
        exact .enter _ _ _ (Or.inl rfl) ho
      | none =>
        rw [ho] at h
        obtain rfl := Option.some.inj h
        exact .code _ (Or.inl rfl) ho
    | cons frame fs =>
      cases frame with
      | lineComment =>
        obtain rfl := Option.some.inj h
        split_ifs with hb
        · exact .endLine _ hb
        · exact .inLine _ hb
      | blockComment =>
        obtain rfl := Option.some.inj h
        exact readBlock_move _ rfl rfl
      | string q triple raw => exact readString_move _ rfl rfl h
      | bracket closer =>
        simp only [read] at h
        cases ho : opening? afterName b rest with
        | some opened =>
          rw [ho] at h
          obtain rfl := Option.some.inj h
          exact .enter _ _ _ (Or.inr ⟨_, _, rfl⟩) ho
        | none =>
          rw [ho] at h
          exact readBracketed_move rfl rfl ho h

/-! ## Coherent readers -/

/-- An opening quote begins a literal, and what belongs to its mark are quotes of the same kind. -/
theorem stringFrame_spec (raw : Bool) (q : Byte) (rest : Text) :
    ∃ triple n, stringFrame raw q rest = (.string q triple raw, n) ∧ ∀ c ∈ rest.take n, c = q := by
  unfold stringFrame
  split
  · rename_i h
    obtain ⟨t, rfl⟩ := List.isPrefixOf_iff_prefix.mp h
    exact ⟨true, 2, rfl, by simp⟩
  · exact ⟨false, 0, rfl, by simp⟩

/-- What opens in code is a comment or a literal, and the rest of its delimiter is really there. -/
theorem opening?_spec {afterName : Bool} {b : Byte} {rest : Text} {frame : Frame} {n : Nat}
    (h : opening? afterName b rest = some (frame, n)) :
    (frame = .lineComment ∨ frame = .blockComment ∨
      ∃ q triple raw, frame = .string q triple raw ∧ isQuote q = true) ∧
    ∀ c ∈ rest.take n, isDelimiter c = true := by
  have hhead {c : Byte} (hc : rest.head? = some c) : rest.take 1 = [c] := by
    rw [List.take_one, hc]
    rfl
  have hquote {q : Byte} (hq : isQuote q = true) : isDelimiter q = true := by
    simp [isDelimiter, hq]
  rcases opening?_eq_some h with ⟨-, h⟩ | ⟨hq, h⟩ | ⟨-, -, h⟩
  · obtain ⟨rfl, ⟨hslash, rfl⟩ | ⟨hstar, rfl⟩⟩ := comment?_eq_some h
    · exact ⟨Or.inl rfl, by rw [hhead hslash, List.forall_mem_singleton]; rfl⟩
    · exact ⟨Or.inr (Or.inl rfl), by rw [hhead hstar, List.forall_mem_singleton]; rfl⟩
  · obtain ⟨triple, m, heq, hmem⟩ := stringFrame_spec false b rest
    obtain ⟨rfl, rfl⟩ := Prod.mk.inj (heq.symm.trans h)
    exact ⟨Or.inr (Or.inr ⟨_, _, _, rfl, hq⟩), fun c hc => hmem c hc ▸ hquote hq⟩
  · obtain ⟨q, more, m, rfl, hq, hframe, rfl⟩ := rawString?_eq_some h
    obtain ⟨triple, k, heq, hmem⟩ := stringFrame_spec true q more
    obtain ⟨rfl, rfl⟩ := Prod.mk.inj (heq.symm.trans hframe)
    rw [List.take_succ_cons]
    exact ⟨Or.inr (Or.inr ⟨_, _, _, rfl, hq⟩), List.forall_mem_cons.mpr
      ⟨hquote hq, fun c hc => hmem c hc ▸ hquote hq⟩⟩

namespace Reader

/-- A reader that can stand in front of `rest`: its literals are delimited by quotes, the bytes of a
delimiter that are still to be passed are those of a delimiter, and the region is that of the
outermost construct. -/
structure Coherent (s : Reader) (rest : Text) : Prop where
  isQuote_of_mem : ∀ {q triple raw}, Frame.string q triple raw ∈ s.frames → isQuote q = true
  isDelimiter_of_mem : (∃ q triple fs, s.frames = .string q triple false :: fs) ∨
    ∀ c ∈ rest.take s.pending, isDelimiter c = true
  region_eq : ∀ frame ∈ s.frames.getLast?, s.region = frame.region

/-- A reader that was just started is coherent. -/
theorem coherent_of_frames_eq_nil {s : Reader} {rest : Text} (hf : s.frames = [])
    (hp : s.pending = 0) : s.Coherent rest :=
  ⟨by simp [hf], Or.inr (by simp [hp]), by simp [hf]⟩

theorem coherent_inside (closer : Byte) (rest : Text) : (inside closer).Coherent rest :=
  ⟨by simp [inside], Or.inr (by simp [inside]), by simp [inside, Frame.region]⟩

/-- Where a construct is open or a delimiter under way, a step keeps the region. -/
private theorem read_of_not_code {s t : Reader} {b : Byte} {rest : Text}
    (h : s.read b rest = some t) (hcode : ¬ (s.frames = [] ∧ s.pending = 0)) :
    t.region = s.region ∧ t.afterName = Byte.isIdentifier b := by
  obtain ⟨frames, pending, afterName, region⟩ := s
  cases pending with
  | succ n =>
    obtain rfl := Option.some.inj h
    exact ⟨rfl, rfl⟩
  | zero =>
    cases frames with
    | nil => exact absurd ⟨rfl, rfl⟩ hcode
    | cons frame fs =>
      cases frame with
      | lineComment =>
        obtain rfl := Option.some.inj h
        split_ifs <;> exact ⟨rfl, rfl⟩
      | blockComment =>
        obtain rfl := Option.some.inj h
        unfold readBlock
        split_ifs <;> exact ⟨rfl, rfl⟩
      | string q triple raw =>
        simp only [read, readString] at h
        split_ifs at h <;> obtain rfl := Option.some.inj h <;> exact ⟨rfl, rfl⟩
      | bracket closer =>
        simp only [read] at h
        cases ho : opening? afterName b rest with
        | some opened =>
          rw [ho] at h
          obtain rfl := Option.some.inj h
          exact ⟨rfl, rfl⟩
        | none =>
          rw [ho] at h
          rcases readBracketed_eq_some h with ⟨inner, -, rfl⟩ | ⟨-, -, -, rfl⟩ | ⟨-, -, rfl⟩ <;>
            exact ⟨rfl, rfl⟩

/-- In plain code a step enters a construct or stays. -/
private theorem read_of_code {s t : Reader} {b : Byte} {rest : Text} (h : s.read b rest = some t)
    (hf : s.frames = []) (hp : s.pending = 0) : t.afterName = Byte.isIdentifier b ∧
      ((∃ frame, t.frames = [frame] ∧ t.region = frame.region) ∨
        (t.frames = [] ∧ t.region = .code ∧ t.pending = 0)) := by
  obtain ⟨frames, pending, afterName, region⟩ := s
  subst hf hp
  simp only [read] at h
  cases ho : opening? afterName b rest with
  | some opened =>
    simp only [ho] at h
    obtain rfl := Option.some.inj h
    exact ⟨rfl, Or.inl ⟨_, rfl, rfl⟩⟩
  | none =>
    simp only [ho] at h
    obtain rfl := Option.some.inj h
    exact ⟨rfl, Or.inr ⟨rfl, rfl, rfl⟩⟩

/-- A step tells the region anew in plain code only. -/
theorem region_read {s t : Reader} {b : Byte} {rest : Text} (h : s.read b rest = some t) :
    (¬ (s.frames = [] ∧ s.pending = 0) ∧ t.region = s.region) ∨
      (s.frames = [] ∧ s.pending = 0 ∧ ((∃ frame, t.frames = [frame] ∧ t.region = frame.region) ∨
        (t.frames = [] ∧ t.region = .code ∧ t.pending = 0))) := by
  by_cases hcode : s.frames = [] ∧ s.pending = 0
  · exact Or.inr ⟨hcode.1, hcode.2, (read_of_code h hcode.1 hcode.2).2⟩
  · exact Or.inl ⟨hcode, (read_of_not_code h hcode).1⟩

/-- A reader knows whether the last byte could belong to a name. -/
theorem afterName_read {s t : Reader} {b : Byte} {rest : Text} (h : s.read b rest = some t) :
    t.afterName = Byte.isIdentifier b := by
  by_cases hcode : s.frames = [] ∧ s.pending = 0
  · exact (read_of_code h hcode.1 hcode.2).1
  · exact (read_of_not_code h hcode).2

/-- A frame put on top of others leaves the outermost one where it is. -/
private theorem getLast?_cons_of_mem {frame top : Frame} {fs : List Frame}
    (h : frame ∈ fs.getLast?) : frame ∈ (top :: fs).getLast? := by
  cases fs with
  | nil => simp at h
  | cons f fs => rwa [List.getLast?_cons_cons]

/-- A step keeps the outermost construct, unless it is the only one. -/
theorem getLast?_of_move {afterName : Bool} {b : Byte} {rest : Text} {fs gs : List Frame}
    {n m : Nat} (h : Move afterName b rest fs n gs m) (hcode : ¬ (fs = [] ∧ n = 0)) :
    ∀ frame ∈ gs.getLast?, frame ∈ fs.getLast? := by
  intro frame hmem
  cases h with
  | pass => exact hmem
  | endLine | endBlock | close | closeTriple | pop => exact getLast?_cons_of_mem hmem
  | inLine | inBlock | escape | inString => exact hmem
  | nest | interpolate | push => rwa [List.getLast?_cons_cons] at hmem
  | enter top m fs' hc =>
    cases fs with
    | nil => exact absurd ⟨rfl, rfl⟩ hcode
    | cons f fs => rwa [List.getLast?_cons_cons] at hmem
  | code => exact hmem

section Coherence

variable {afterName : Bool} {b : Byte} {rest : Text} {fs gs : List Frame} {n m : Nat}

/-- The literals that are open behind a step are delimited by quotes, as those in front of it. -/
private theorem isQuote_of_move (h : Move afterName b rest fs n gs m)
    (hfs : ∀ {q triple raw}, Frame.string q triple raw ∈ fs → isQuote q = true) {q : Byte}
    {triple raw : Bool} (hmem : Frame.string q triple raw ∈ gs) : isQuote q = true := by
  cases h with
  | pass | inLine | inBlock | escape | inString | code => exact hfs hmem
  | endLine | endBlock | close | closeTriple | pop => exact hfs (List.mem_cons_of_mem _ hmem)
  | nest | interpolate | push => exact hfs (by simpa using hmem)
  | enter frame n fs hcode hopen =>
    rcases List.mem_cons.mp hmem with rfl | hmem
    · rcases (opening?_spec hopen).1 with hframe | hframe | ⟨_, _, _, hframe, hq⟩
      · simp at hframe
      · simp at hframe
      · rwa [(Frame.string.inj hframe).1]
    · exact hfs hmem

/-- What a step leaves to be passed are bytes of a delimiter, unless it escapes a byte. -/
private theorem isDelimiter_of_move (h : Move afterName b rest fs n gs m)
    (hfs : ∀ {q triple raw}, Frame.string q triple raw ∈ fs → isQuote q = true)
    (hn : (∃ q triple more, fs = .string q triple false :: more) ∨
      ∀ c ∈ (b :: rest).take n, isDelimiter c = true) :
    (∃ q triple more, gs = .string q triple false :: more) ∨
      ∀ c ∈ rest.take m, isDelimiter c = true := by
  have hhead {c : Byte} (hc : rest.head? = some c) (hd : isDelimiter c = true) :
      ∀ c ∈ rest.take 1, isDelimiter c = true := by
    rw [List.take_one, hc]
    simpa using hd
  cases h with
  | pass fs n =>
    refine hn.imp_right fun hn c hc => hn c ?_
    rw [List.take_succ_cons]
    exact List.mem_cons_of_mem _ hc
  | escape => exact Or.inl ⟨_, _, _, rfl⟩
  | nest fs hb hrest => exact Or.inr (hhead hrest rfl)
  | endBlock fs hb hrest => exact Or.inr (hhead hrest rfl)
  | interpolate q triple fs hb hrest => exact Or.inr (hhead hrest rfl)
  | closeTriple raw fs hrest =>
    obtain ⟨t, rfl⟩ := List.isPrefixOf_iff_prefix.mp hrest
    have hb : isDelimiter b = true := by simp [isDelimiter, hfs (List.mem_cons_self ..)]
    exact Or.inr (by simp [hb])
  | enter frame n fs hcode hopen => exact Or.inr (opening?_spec hopen).2
  | endLine | inLine | inBlock | close | inString | push | pop | code => exact Or.inr (by simp)

/-- A step keeps a reader coherent. -/
theorem Coherent.read {s t : Reader} (hs : s.Coherent (b :: rest)) (h : s.read b rest = some t) :
    t.Coherent rest where
  isQuote_of_mem := isQuote_of_move (read_move h) hs.isQuote_of_mem
  isDelimiter_of_mem := isDelimiter_of_move (read_move h) hs.isQuote_of_mem hs.isDelimiter_of_mem
  region_eq := by
    intro frame hmem
    rcases region_read h with ⟨hcode, heq⟩ | ⟨-, -, ⟨frame', hf, heq⟩ | ⟨hf, -, -⟩⟩
    · rw [heq]
      exact hs.region_eq frame (getLast?_of_move (read_move h) hcode frame hmem)
    · rw [hf, List.getLast?_singleton, Option.mem_some_iff] at hmem
      rw [heq, hmem]
    · simp [hf] at hmem

end Coherence

/-- What a step in a block comment does is told by the stretch it goes over. Only the last byte of
the stretch looks over its end, and an inert text completes no mark. -/
private theorem readBlock_inert {s : Reader} {b : Byte} {w y z : Text} (hz : Inert z) :
    s.readBlock b (w ++ z) = s.readBlock b (w ++ y) ∨
      w.length < (s.readBlock b (w ++ y)).pending := by
  cases w with
  | cons c w => exact Or.inl rfl
  | nil =>
    have hslash : z.head? ≠ some Byte.slash := hz.head?_ne (by decide)
    have hstar : z.head? ≠ some (byte '*') := hz.head?_ne (by decide)
    have hstay : s.readBlock b ([] ++ z) = s := by
      simp [readBlock, hslash, hstar]
    rw [hstay]
    unfold readBlock
    split
    · exact Or.inr Nat.one_pos
    · split
      · exact Or.inr Nat.one_pos
      · exact Or.inl rfl

/-- What a step in a literal does is told by the stretch it goes over, or quotes go over its end. -/
private theorem readString_inert {s : Reader} {q b : Byte} {triple raw : Bool} {w y z : Text}
    (hq : isQuote q = true) (hz : Inert z) :
    s.readString q triple raw b (w ++ z) = s.readString q triple raw b (w ++ y) ∨
      ∃ t, s.readString q triple raw b (w ++ y) = some t ∧ w.length < t.pending := by
  by_cases hescape : (!raw && decide (b = Byte.backslash)) = true
  · exact Or.inl (by simp only [readString, hescape, if_true])
  by_cases hline : (!triple && decide (b = Byte.newline)) = true
  · exact Or.inl (by simp only [readString, hescape, hline, if_true])
  by_cases hdollar : (!raw && decide (b = byte '$')) = true
  · have hne : b ≠ q := by
      rintro rfl
      simp only [Bool.and_eq_true, decide_eq_true_eq] at hdollar
      rw [hdollar.2] at hq
      exact absurd hq (by decide)
    simp only [readString, hescape, hline, hdollar, hne, if_false, Bool.true_and,
      Bool.false_eq_true]
    cases w with
    | cons c w => exact Or.inl rfl
    | nil =>
      have hbrace : z.head? ≠ some (byte '{') := hz.head?_ne (by decide)
      simp only [List.nil_append, hbrace, decide_false, Bool.false_eq_true, if_false]
      split
      · exact Or.inr ⟨_, rfl, Nat.one_pos⟩
      · exact Or.inl rfl
  · simp only [readString, hescape, hline, hdollar, Bool.false_and, Bool.false_eq_true, if_false]
    split
    · split
      · exact Or.inl rfl
      · rcases isPrefixOf_inert hq hz (w := w) (y := y) with h | ⟨h, hlt⟩
        · exact Or.inl (by rw [h])
        · exact Or.inr ⟨_, by rw [if_pos h], hlt⟩
    · exact Or.inl rfl

/-- What a step does is told by the stretch it goes over, or a delimiter goes over the end of the
stretch. A line comment does not look ahead; code does so where something opens. -/
theorem read_inert {s : Reader} {b : Byte} {w y z : Text} (hs : s.Coherent (b :: w ++ y))
    (hz : Inert z) : s.read b (w ++ z) = s.read b (w ++ y) ∨
      ∃ t, s.read b (w ++ y) = some t ∧ w.length < t.pending := by
  obtain ⟨frames, pending, afterName, region⟩ := s
  cases pending with
  | succ n => exact Or.inl rfl
  | zero =>
    have hopen := opening?_inert afterName b (w := w) (y := y) hz
    cases frames with
    | nil =>
      rcases hopen with h | ⟨frame, n, h, hlt⟩
      · exact Or.inl (by simp only [read, h])
      · exact Or.inr ⟨_, by simp only [read, h]; rfl, hlt⟩
    | cons frame fs =>
      cases frame with
      | lineComment => exact Or.inl rfl
      | blockComment =>
        rcases readBlock_inert (b := b) (w := w) (y := y) hz with h | h
        · exact Or.inl (congrArg some h)
        · exact Or.inr ⟨_, rfl, h⟩
      | string q triple raw => exact readString_inert (hs.isQuote_of_mem (List.mem_cons_self ..)) hz
      | bracket closer =>
        rcases hopen with h | ⟨frame, n, h, hlt⟩
        · exact Or.inl (by simp only [read, h])
        · exact Or.inr ⟨_, by simp only [read, h]; rfl, hlt⟩

end Reader

end FlutterScaffold.Dart
