import FlutterScaffold.Proofs.Dart.Regions
import FlutterScaffold.Proofs.Dart.Unwinding

/-!
# Brackets match around balanced source

A reader goes over a phrase of the grammar and closes what the phrase closes, whatever else is open
(`Derives.reads`). So a bracket is matched by a closer exactly when the closer is its own and the
source between them is balanced (`matchingBracket_eq_some_iff`).
-/

namespace FlutterScaffold.Dart

open Byte (newline slash backslash)

/-! ## Looking ahead -/

section Ahead

variable {a : Bool} {b c : Byte} {d w y z : Text}

/-- Marks of delimiters do not go over the end of a stretch that harmless text follows. -/
theorem prefix_append_inert (hd : ∀ b ∈ d, isDelimiter b = true) (hz : Inert z) :
    d <+: w ++ z ↔ d <+: w := by
  induction d generalizing w with
  | nil => simp
  | cons b d ih =>
    obtain ⟨hb, hd⟩ := List.forall_mem_cons.mp hd
    cases w with
    | nil =>
      refine iff_of_false (fun h => ?_) (by simp)
      obtain ⟨u, rfl⟩ := h
      exact hz.head?_ne hb rfl
    | cons c w => rw [List.cons_append, List.cons_prefix_cons, List.cons_prefix_cons, ih hd]

/-- A mark does not go over the end of a stretch that is as long as it. -/
theorem prefix_append_of_length_le (h : d.length ≤ w.length) : d <+: w ++ z ↔ d <+: w :=
  ⟨fun hd => List.prefix_of_prefix_length_le hd (List.prefix_append w z) h,
    fun hd => hd.trans (List.prefix_append w z)⟩

/-- Inert text behind a byte does not complete a pair with a delimiter. -/
private theorem pair_prefix_append_inert {x : Byte} (hx : isDelimiter x = true) (hz : Inert z) :
    [c, x] <+: b :: (w ++ z) ↔ [c, x] <+: b :: w := by
  have hd : ∀ b ∈ [x], isDelimiter b = true := by simpa using hx
  rw [List.cons_prefix_cons, List.cons_prefix_cons, prefix_append_inert hd hz]

/-- Inert text at the end does not open a comment. -/
theorem startsComment_append_inert (hz : Inert z) :
    StartsComment (b :: (w ++ z)) ↔ StartsComment (b :: w) := by
  rw [StartsComment, StartsComment, pair_prefix_append_inert rfl hz,
    pair_prefix_append_inert rfl hz]

/-- Inert text at the end does not open a literal. -/
theorem startsLiteral_append_inert (hz : Inert z) :
    StartsLiteral a (b :: (w ++ z)) ↔ StartsLiteral a (b :: w) := by
  refine exists_congr fun q => and_congr_right fun hq => ?_
  have hd : isDelimiter q = true := by simp [isDelimiter, hq]
  rw [pair_prefix_append_inert hd hz, List.cons_prefix_cons, List.cons_prefix_cons]
  simp

/-- A bracket opens neither a comment nor a literal. -/
theorem opening?_of_bracket (h : closerOf? b ≠ none ∨ isCloser b = true) (a : Bool) (y : Text) :
    opening? a b y = none := by
  have hplain : ∀ b, closerOf? b ≠ none ∨ isCloser b = true →
      b ≠ slash ∧ isQuote b = false ∧ b ≠ byte 'r' := by
    decide +kernel
  obtain ⟨hslash, hquote, hraw⟩ := hplain b h
  exact opening?_eq_none hslash hquote (absurd · hraw)

/-- The mark of a literal opens it. -/
theorem exists_opening?_literalMark {q : Byte} {triple raw : Bool} (hq : isQuote q = true)
    (hraw : raw = true → a = false) (hgreedy : triple = false → ¬ [q, q] <+: y) :
    ∃ x d, literalMark q triple raw = x :: d ∧
      opening? a x (d ++ y) = some (.string q triple raw, d.length) := by
  have hslash : q ≠ slash := by
    rintro rfl
    exact absurd hq (by decide)
  have hframe : ∃ d, quotes q triple = q :: d ∧
      stringFrame raw q (d ++ y) = (.string q triple raw, d.length) := by
    cases triple with
    | false =>
      refine ⟨[], rfl, if_neg fun h => hgreedy rfl (List.isPrefixOf_iff_prefix.mp h)⟩
    | true => exact ⟨[q, q], rfl, if_pos (by simp)⟩
  obtain ⟨d, hd, hframe⟩ := hframe
  cases raw with
  | false =>
    refine ⟨q, d, hd, ?_⟩
    rw [opening?_eq, if_neg hslash, if_pos hq, hframe]
  | true =>
    refine ⟨byte 'r', q :: d, congrArg (byte 'r' :: ·) hd, ?_⟩
    rw [opening?_eq, hraw rfl, List.cons_append, rawString?, if_pos hq, hframe]
    rfl

end Ahead

/-! ## Going over a text -/

/-- Reader `s` goes over `w`, which `rest` follows, to reader `t` without coming to where it stops,
and tells the regions `l`. -/
inductive Goes (stops : Reader → Bool) (rest : Text) :
    Reader → Text → Reader → List Region → Prop where
  | nil (s : Reader) : Goes stops rest s [] s []
  | cons {s r t : Reader} {b : Byte} {w : Text} {l : List Region} :
      s.read b (w ++ rest) = some r → stops r = false → Goes stops rest r w t l →
        Goes stops rest s (b :: w) t (r.region :: l)

section Goes

variable {stops : Reader → Bool} {rest v w : Text} {s r t : Reader} {k l : List Region}

/-- A reader that goes through a text does so without a stop. -/
theorem Goes.runUntil (h : Goes stops rest s w t l) : s.runUntil stops rest w = some t := by
  induction h with
  | nil => rfl
  | cons hread hstop _ ih => rw [Reader.runUntil_cons_of_read hread hstop, ih]

/-- A reader that goes through a text classifies it as told. -/
theorem Goes.regions_eq (h : Goes stops rest s w t l) : s.regions rest w = l := by
  induction h with
  | nil => rfl
  | cons hread _ _ ih => rw [Reader.regions_cons_of_read hread, ih]

/-- A reader goes through two texts one after the other. -/
theorem Goes.append (hv : Goes stops (w ++ rest) s v r k) (hw : Goes stops rest r w t l) :
    Goes stops rest s (v ++ w) t (k ++ l) := by
  induction hv with
  | nil => exact hw
  | cons hread hstop _ ih =>
    refine .cons ?_ hstop (ih hw)
    rw [List.append_eq, List.append_assoc]
    exact hread

end Goes

/-! ## Steps in code -/

/-- The region that a reader tells of a byte whose own region is `own`, where constructs are open
that the byte is not part of. -/
def hue (fs : List Frame) (region own : Region) : Region := if fs = [] then own else region

/-- The constructs that are open behind an opening bracket; no bracket is kept in plain code. -/
def deeper (closer : Byte) (fs : List Frame) : List Frame :=
  if fs = [] then [] else .bracket closer :: fs

@[simp] theorem hue_nil (region : Region) : hue [] region = id := rfl

@[simp] theorem hue_cons (frame : Frame) (fs : List Frame) (region : Region) :
    hue (frame :: fs) region = fun _ => region := rfl

section Steps

variable {stops : Reader → Bool} {fs : List Frame} {a raw triple : Bool} {b c q : Byte}
  {rest w y : Text} {frame : Frame} {n : Nat} {region : Region}

/-- Where constructs are open, the region that was told before is told on. -/
theorem hue_hue (fs : List Frame) (region own : Region) :
    hue fs (hue fs region own) = hue fs region := by
  cases fs <;> rfl

/-- An opening bracket does not change the region that is told. -/
theorem hue_deeper (c : Byte) (fs : List Frame) (region : Region) :
    hue (deeper c fs) region = hue fs region := by
  cases fs <;> rfl

/-- Behind an opening bracket there is code. -/
theorem isCode_deeper (c : Byte) (fs : List Frame) : IsCode (deeper c fs) := by
  cases fs with
  | nil => exact Or.inl rfl
  | cons frame fs => exact Or.inr ⟨c, _, rfl⟩

/-- An opening bracket keeps the frames that are open already. -/
theorem suffix_deeper (c : Byte) (fs : List Frame) : fs <:+ deeper c fs := by
  cases fs with
  | nil => exact List.suffix_refl _
  | cons frame fs => exact List.suffix_cons _ _

/-- What opens in code is entered. -/
theorem read_opening (hcode : IsCode fs) (ho : opening? a b y = some (frame, n)) :
    (⟨fs, 0, a, region⟩ : Reader).read b y =
      some ⟨frame :: fs, n, Byte.isIdentifier b, hue fs region frame.region⟩ := by
  rcases hcode with rfl | ⟨closer, more, rfl⟩ <;> simp [Reader.read, ho, Reader.enter]

/-- A plain byte of code leaves the frames as they are. -/
theorem read_byte (hcode : IsCode fs) (ho : opening? a b y = none) (hopen : closerOf? b = none)
    (hclose : isCloser b = false) : (⟨fs, 0, a, region⟩ : Reader).read b y =
      some ⟨fs, 0, Byte.isIdentifier b, hue fs region .code⟩ := by
  rcases hcode with rfl | ⟨closer, more, rfl⟩ <;>
    simp [Reader.read, ho, Reader.readBracketed, hopen, hclose]

/-- An opening bracket goes one frame deeper. -/
theorem read_opener (hcode : IsCode fs) (hb : closerOf? b = some c) :
    (⟨fs, 0, a, region⟩ : Reader).read b y =
      some ⟨deeper c fs, 0, false, hue fs region .code⟩ := by
  have ho : opening? a b y = none := opening?_of_bracket (Or.inl (by simp [hb])) a y
  have hname := not_isIdentifier_of_closerOf? hb
  rcases hcode with rfl | ⟨closer, more, rfl⟩ <;>
    simp [Reader.read, ho, Reader.readBracketed, hb, hname, deeper, Reader.enter]

/-- A closing bracket opens nothing and is part of no word. -/
theorem closerOf?_spec (hb : closerOf? b = some c) : isCloser c = true ∧ closerOf? c = none ∧
    Byte.isIdentifier c = false ∧ isDelimiter c = false := by
  unfold closerOf? at hb
  split_ifs at hb <;> cases hb <;> decide

/-- The closing bracket of a frame goes back to the frames below. -/
theorem read_closer (hb : closerOf? b = some c) : (⟨deeper c fs, 0, a, region⟩ : Reader).read c y =
      some ⟨fs, 0, false, hue fs region .code⟩ := by
  obtain ⟨hclose, hopen, hname, -⟩ := closerOf?_spec hb
  have ho := opening?_of_bracket (Or.inr hclose) a y
  cases fs <;>
    simp [Reader.read, ho, Reader.readBracketed, hopen, hclose, hname, deeper, Reader.leave]

/-- Bytes of a delimiter are passed. -/
theorem exists_goes_pass (d : Text) (hstop : ∀ t : Reader, fs <:+ t.frames → stops t = false) :
    ∃ a', Goes stops rest ⟨fs, d.length, a, region⟩ d ⟨fs, 0, a', region⟩
      (List.replicate d.length region) := by
  induction d generalizing a with
  | nil => exact ⟨a, .nil _⟩
  | cons b d ih =>
    obtain ⟨a', h⟩ := ih (a := Byte.isIdentifier b)
    exact ⟨a', .cons rfl (hstop _ (List.suffix_refl _)) h⟩

/-- A comment goes up to the end of its line. -/
theorem goes_line (hw : newline ∉ w) (hstop : ∀ t : Reader, fs <:+ t.frames → stops t = false) :
    Goes stops rest ⟨.lineComment :: fs, 0, a, region⟩ (w ++ [newline]) ⟨fs, 0, false, region⟩
      (List.replicate (w.length + 1) region) := by
  induction w generalizing a with
  | nil => exact .cons rfl (hstop _ (List.suffix_refl _)) (.nil _)
  | cons b w ih =>
    obtain ⟨hb, hw⟩ := not_or.mp (List.mem_cons.not.mp hw)
    have hread : (⟨.lineComment :: fs, 0, a, region⟩ : Reader).read b (w ++ [newline] ++ rest) =
        some ⟨.lineComment :: fs, 0, Byte.isIdentifier b, region⟩ :=
      congrArg some (if_neg (Ne.symm hb))
    exact .cons hread (hstop _ (List.suffix_cons _ _)) (ih hw)

end Steps

/-! ## Going over a phrase -/

/-- A reader goes over a text as over a phrase of a kind, whatever else is open: of bracketed source
it tells the regions `l`, and all that is in a comment or a literal has one region. -/
def Reads (stops : Reader → Bool) : Phrase → Text → List Region → Prop
  | .contents a, w, l => ∀ fs region rest, IsCode fs → (∀ t, fs <:+ t.frames → stops t = false) →
      Inert rest → ∃ a' region', hue fs region' = hue fs region ∧
        Goes stops rest ⟨fs, 0, a, region⟩ w ⟨fs, 0, a', region'⟩ (l.map (hue fs region))
  | .block, w, _ => ∀ fs a region rest, (∀ t, fs <:+ t.frames → stops t = false) →
      Goes stops rest ⟨.blockComment :: fs, 0, a, region⟩ w ⟨fs, 0, false, region⟩
        (List.replicate w.length region)
  | .literal q triple raw, w, _ => isQuote q = true → ∀ fs a region rest,
      (∀ t, fs <:+ t.frames → stops t = false) →
        Goes stops rest ⟨.string q triple raw :: fs, 0, a, region⟩ w ⟨fs, 0, false, region⟩
          (List.replicate w.length region)

section Reads

variable {stops : Reader → Bool} {a : Bool} {v w : Text} {k l : List Region}

/-- What a reader goes over on its way through code stands in front of more of it. -/
theorem Reads.contents_append {a₁ : Bool} (own : Region) (hw : Reads stops (.contents a₁) w l)
    (hv : ∀ fs region rest, IsCode fs → (∀ t, fs <:+ t.frames → stops t = false) → Inert rest →
      Goes stops (w ++ rest) ⟨fs, 0, a, region⟩ v ⟨fs, 0, a₁, hue fs region own⟩
        (k.map (hue fs region))) :
    Reads stops (.contents a) (v ++ w) (k ++ l) := by
  intro fs region rest hcode hstop hrest
  obtain ⟨a', region', hregion, hgoes⟩ := hw fs (hue fs region own) rest hcode hstop hrest
  rw [hue_hue] at hregion hgoes
  refine ⟨a', region', hregion, ?_⟩
  rw [List.map_append]
  exact (hv fs region rest hcode hstop hrest).append hgoes

/-- A line comment is read up to its newline. -/
theorem Reads.lineComment (hv : newline ∉ v) (hw : Reads stops (.contents false) w l) :
    Reads stops (.contents a) (slash :: slash :: (v ++ newline :: w))
      (List.replicate (v.length + 3) .comment ++ l) := by
  have hcut : slash :: slash :: (v ++ newline :: w) = slash :: slash :: (v ++ [newline]) ++ w := by
    simp
  rw [hcut]
  refine hw.contents_append .comment fun fs region rest hcode hstop _ => ?_
  have ho : opening? a slash (slash :: (v ++ [newline]) ++ (w ++ rest)) = some (.lineComment, 1) :=
    rfl
  rw [List.map_replicate]
  exact .cons (read_opening hcode ho) (hstop _ (List.suffix_cons _ _))
    (.cons rfl (hstop _ (List.suffix_cons _ _)) (goes_line hv hstop))

/-- A block comment is read with all that is nested in it. -/
theorem Reads.blockComment (hv : Reads stops .block v k)
    (hk : k = List.replicate v.length .comment) (hw : Reads stops (.contents false) w l) :
    Reads stops (.contents a) (slash :: byte '*' :: (v ++ w))
      (.comment :: .comment :: (k ++ l)) := by
  refine hw.contents_append .comment (v := slash :: byte '*' :: v) (k := .comment :: .comment :: k)
    fun fs region rest hcode hstop _ => ?_
  have ho : opening? a slash (byte '*' :: v ++ (w ++ rest)) = some (.blockComment, 1) := rfl
  rw [List.map_cons, List.map_cons, hk, List.map_replicate]
  exact .cons (read_opening hcode ho) (hstop _ (List.suffix_cons _ _))
    (.cons rfl (hstop _ (List.suffix_cons _ _)) (hv fs false _ (w ++ rest) hstop))

/-- A literal is read from its marks to its quotes, and is a string throughout. -/
theorem Reads.contents_literal {q : Byte} {triple raw : Bool} (hq : isQuote q = true)
    (hraw : raw = true → a = false) (hgreedy : triple = false → ¬ [q, q] <+: v ++ w)
    (hv : Reads stops (.literal q triple raw) v k) (hk : k = List.replicate v.length .string)
    (hw : Reads stops (.contents false) w l) :
    Reads stops (.contents a) (literalMark q triple raw ++ (v ++ w))
      (List.replicate (literalMark q triple raw).length .string ++ (k ++ l)) := by
  rw [← List.append_assoc, ← List.append_assoc]
  refine hw.contents_append .string fun fs region rest hcode hstop hrest => ?_
  have hquotes : ∀ b ∈ [q, q], isDelimiter b = true := by simp [isDelimiter, hq]
  obtain ⟨x, d, hmark, ho⟩ := exists_opening?_literalMark (y := v ++ w ++ rest) hq hraw
    fun htriple h => hgreedy htriple ((prefix_append_inert hquotes hrest).mp h)
  obtain ⟨a₁, hpass⟩ : ∃ a₁, Goes stops (v ++ (w ++ rest))
      ⟨.string q triple raw :: fs, d.length, Byte.isIdentifier x, hue fs region .string⟩ d
      ⟨.string q triple raw :: fs, 0, a₁, hue fs region .string⟩
      (List.replicate d.length (hue fs region .string)) :=
    exists_goes_pass d fun t h => hstop t ((List.suffix_cons _ _).trans h)
  have hbody := hpass.append (hv hq fs a₁ (hue fs region .string) (w ++ rest) hstop)
  simp only [hmark, List.length_cons, List.replicate_succ, List.cons_append, List.map_cons,
    List.map_append, hk, List.map_replicate]
  refine .cons (read_opening hcode ?_) (hstop _ (List.suffix_cons _ _)) hbody
  simpa using ho

/-- A bracketed group is read from its opener to its closer. -/
theorem Reads.group {b c : Byte} (hb : closerOf? b = some c)
    (hv : Reads stops (.contents false) v k) (hw : Reads stops (.contents false) w l) :
    Reads stops (.contents a) (b :: (v ++ c :: w)) (.code :: (k ++ .code :: l)) := by
  have hcut : b :: (v ++ c :: w) = b :: (v ++ [c]) ++ w := by simp
  have hregions : Region.code :: (k ++ .code :: l) = .code :: (k ++ [.code]) ++ l := by simp
  rw [hcut, hregions]
  refine hw.contents_append .code fun fs region rest hcode hstop _ => ?_
  have hinert : Inert ([c] ++ (w ++ rest)) := inert_cons.mpr (closerOf?_spec hb).2.2.2
  obtain ⟨a₁, region₁, hregion₁, hinner⟩ := hv (deeper c fs) (hue fs region .code) _
    (isCode_deeper c fs) (fun t h => hstop t ((suffix_deeper c fs).trans h)) hinert
  rw [hue_deeper, hue_deeper, hue_hue] at hregion₁
  rw [hue_deeper, hue_hue] at hinner
  have hclose : (⟨deeper c fs, 0, a₁, region₁⟩ : Reader).read c ([] ++ (w ++ rest)) =
      some ⟨fs, 0, false, hue fs region .code⟩ := by
    rw [read_closer hb, hregion₁]
  rw [List.map_cons, List.map_append, List.map_singleton]
  refine .cons (read_opener hcode hb) (hstop _ (suffix_deeper c fs)) ?_
  exact hinner.append (.cons hclose (hstop _ (List.suffix_refl _)) (.nil _))

/-- A byte of plain code is read by itself. -/
theorem Reads.plain {b : Byte} (hcomment : ¬ StartsComment (b :: w))
    (hliteral : ¬ StartsLiteral a (b :: w)) (hopen : closerOf? b = none)
    (hclose : isCloser b = false) (hw : Reads stops (.contents (Byte.isIdentifier b)) w l) :
    Reads stops (.contents a) (b :: w) (.code :: l) := by
  refine hw.contents_append .code (v := [b]) (k := [.code])
    fun fs region rest hcode hstop hrest => ?_
  have ho : opening? a b ([] ++ (w ++ rest)) = none := by
    rw [List.nil_append, opening?_eq_none_iff, startsComment_append_inert hrest,
      startsLiteral_append_inert hrest]
    exact ⟨hcomment, hliteral⟩
  exact .cons (read_byte hcode ho hopen hclose) (hstop _ (List.suffix_refl _)) (.nil _)

/-- A comment nested in a comment is read as a whole. -/
theorem Reads.nest (hv : Reads stops .block v k) (hw : Reads stops .block w l) :
    Reads stops .block (slash :: byte '*' :: (v ++ w)) (.comment :: .comment :: (k ++ l)) := by
  intro fs a region rest hstop
  have hstop' (t : Reader) (h : .blockComment :: fs <:+ t.frames) : stops t = false :=
    hstop t ((List.suffix_cons _ _).trans h)
  have hbody := (hv (.blockComment :: fs) false region (w ++ rest) hstop').append
    (hw fs false region rest hstop)
  rw [List.replicate_append_replicate, ← List.length_append] at hbody
  have hslash : (⟨.blockComment :: fs, 0, a, region⟩ : Reader).read slash
      (byte '*' :: (v ++ w) ++ rest) =
        some ⟨.blockComment :: .blockComment :: fs, 1, false, region⟩ := rfl
  exact .cons hslash (hstop' _ (List.suffix_cons _ _))
    (.cons rfl (hstop' _ (List.suffix_cons _ _)) hbody)

/-- A byte inside of a comment is read by itself. -/
theorem Reads.inBlock {b : Byte} (hnest : ¬ [slash, byte '*'] <+: b :: w)
    (hend : ¬ [byte '*', slash] <+: b :: w) (hlen : 0 < w.length) (hw : Reads stops .block w l) :
    Reads stops .block (b :: w) (.comment :: l) := by
  intro fs a region rest hstop
  have hread : (⟨.blockComment :: fs, 0, a, region⟩ : Reader).read b (w ++ rest) =
      some ⟨.blockComment :: fs, 0, Byte.isIdentifier b, region⟩ := by
    obtain ⟨c, w, rfl⟩ := List.exists_cons_of_length_pos hlen
    have hpair {x x' : Byte} (h : ¬ [x, x'] <+: b :: c :: w) : ¬ (b = x ∧ c = x') := by
      rintro ⟨rfl, rfl⟩
      exact h (by simp)
    simp [Reader.read, Reader.readBlock, hpair hnest, hpair hend]
  exact .cons hread (hstop _ (List.suffix_cons _ _)) (hw fs _ region rest hstop)

/-- The mark that ends a comment belongs to it. -/
theorem Reads.endBlock : Reads stops .block [byte '*', slash] [.comment, .comment] := by
  intro fs a region rest hstop
  have hstar : (⟨.blockComment :: fs, 0, a, region⟩ : Reader).read (byte '*') ([slash] ++ rest) =
      some ⟨fs, 1, false, region⟩ := rfl
  exact .cons hstar (hstop _ (List.suffix_refl _))
    (.cons rfl (hstop _ (List.suffix_refl _)) (.nil _))

section Literal

variable {q b : Byte} {triple raw : Bool}

/-- A quote is no backslash, newline or dollar sign, and part of no word. -/
private theorem quote_spec : ∀ q, isQuote q →
    q ≠ backslash ∧ q ≠ newline ∧ q ≠ byte '$' ∧ Byte.isIdentifier q = false := by
  decide +kernel

/-- The quotes that end a literal belong to it. -/
theorem Reads.endLiteral (q : Byte) (triple raw : Bool) :
    Reads stops (.literal q triple raw) (quotes q triple)
      (List.replicate (quotes q triple).length .string) := by
  intro hq fs a region rest hstop
  obtain ⟨hback, hline, hdollar, hname⟩ := quote_spec q hq
  cases triple with
  | false =>
    have hread : (⟨.string q false raw :: fs, 0, a, region⟩ : Reader).read q ([] ++ rest) =
        some ⟨fs, 0, false, region⟩ := by
      simp [Reader.read, Reader.readString, Reader.leave, hback, hline, hdollar, hname]
    exact .cons hread (hstop _ (List.suffix_refl _)) (.nil _)
  | true =>
    have hread : (⟨.string q true raw :: fs, 0, a, region⟩ : Reader).read q ([q, q] ++ rest) =
        some ⟨fs, 2, false, region⟩ := by
      simp [Reader.read, Reader.readString, Reader.leave, hback, hdollar, hname]
    have hpass (n : Nat) (y : Text) : (⟨fs, n + 1, false, region⟩ : Reader).read q y =
        some ⟨fs, n, false, region⟩ := by
      rw [← hname]
      rfl
    exact .cons hread (hstop _ (List.suffix_refl _))
      (.cons (hpass 1 _) (hstop _ (List.suffix_refl _))
      (.cons (hpass 0 _) (hstop _ (List.suffix_refl _)) (.nil _)))

/-- A backslash is read with the byte that it escapes. -/
theorem Reads.escape (hw : Reads stops (.literal q triple false) w l) :
    Reads stops (.literal q triple false) (backslash :: b :: w) (.string :: .string :: l) := by
  intro hq fs a region rest hstop
  have hread : (⟨.string q triple false :: fs, 0, a, region⟩ : Reader).read backslash
      (b :: w ++ rest) = some ⟨.string q triple false :: fs, 1, false, region⟩ := rfl
  exact .cons hread (hstop _ (List.suffix_cons _ _))
    (.cons rfl (hstop _ (List.suffix_cons _ _)) (hw hq fs _ region rest hstop))

/-- An interpolation is read as contents and belongs to its literal. Inside a literal the bytes of
an interpolation count as the literal's own. -/
theorem Reads.interpolation (hv : Reads stops (.contents false) v k) (hk : k.length = v.length)
    (hw : Reads stops (.literal q triple false) w l) :
    Reads stops (.literal q triple false) (byte '$' :: byte '{' :: (v ++ byte '}' :: w))
      (List.replicate (v.length + 3) .string ++ l) := by
  intro hq fs a region rest hstop
  have hstop' (t : Reader) (h : .string q triple false :: fs <:+ t.frames) : stops t = false :=
    hstop t ((List.suffix_cons _ _).trans h)
  have hstop'' (t : Reader) (h : .bracket (byte '}') :: .string q triple false :: fs <:+ t.frames) :
      stops t = false := hstop' t ((List.suffix_cons _ _).trans h)
  obtain ⟨a', region', hregion, hinner⟩ := hv (.bracket (byte '}') :: .string q triple false :: fs)
    region (byte '}' :: (w ++ rest)) (Or.inr ⟨_, _, rfl⟩) hstop'' (inert_cons.mpr rfl)
  obtain rfl : region' = region := congrFun hregion .code
  have hdollar : (⟨.string q triple false :: fs, 0, a, region'⟩ : Reader).read (byte '$')
      (byte '{' :: (v ++ byte '}' :: w) ++ rest) =
        some ⟨.bracket (byte '}') :: .string q triple false :: fs, 1, true, region'⟩ := by
    simp [Reader.read, Reader.readString, Reader.enter, show byte '$' ≠ backslash by decide,
      show byte '$' ≠ newline by decide, show Byte.isIdentifier (byte '$') = true by decide]
  have hclose : (⟨.bracket (byte '}') :: .string q triple false :: fs, 0, a', region'⟩ :
      Reader).read (byte '}') (w ++ rest) =
        some ⟨.string q triple false :: fs, 0, false, region'⟩ := by
    change (⟨deeper (byte '}') (.string q triple false :: fs), 0, a', region'⟩ :
      Reader).read _ _ = _
    exact read_closer (b := byte '{') rfl
  have hbody := hinner.append
    (.cons hclose (hstop' _ (List.suffix_refl _)) (hw hq fs false region' rest hstop))
  have hregions : k.map (hue (.bracket (byte '}') :: .string q triple false :: fs) region') ++
      region' :: List.replicate w.length region' =
        List.replicate (v ++ byte '}' :: w).length region' := by
    rw [hue_cons, List.map_const', hk, ← List.replicate_succ, List.replicate_append_replicate,
      List.length_append]
    rfl
  rw [hregions] at hbody
  exact .cons hdollar (hstop'' _ (List.suffix_refl _))
    (.cons rfl (hstop'' _ (List.suffix_refl _)) hbody)

/-- A byte that does not escape, interpolate or end the literal leaves the reader in it. -/
private theorem read_inLiteral {fs : List Frame} {a : Bool} {region : Region}
    (hraw : raw = false → b ≠ backslash ∧ ¬ [byte '$', byte '{'] <+: b :: w)
    (hline : triple = false → b ≠ newline) (hend : ¬ quotes q triple <+: b :: w) (hw : w ≠ []) :
    (⟨.string q triple raw :: fs, 0, a, region⟩ : Reader).read b w =
      some ⟨.string q triple raw :: fs, 0, Byte.isIdentifier b, region⟩ := by
  obtain ⟨c, w, rfl⟩ := List.exists_cons_of_ne_nil hw
  have hescape : ¬ (!raw && decide (b = backslash)) = true := by
    cases raw with
    | false => simpa using (hraw rfl).1
    | true => simp
  have hdollar : ¬ (!raw && decide (b = byte '$') &&
      decide ((c :: w).head? = some (byte '{'))) = true := by
    cases raw with
    | false =>
      intro h
      simp only [Bool.not_false, Bool.true_and, Bool.and_eq_true, decide_eq_true_eq] at h
      obtain ⟨rfl, hc⟩ := h
      obtain rfl : c = byte '{' := Option.some.inj hc
      exact (hraw rfl).2 (List.prefix_append [_, _] w)
    | true => simp
  have hbreak : ¬ (!triple && decide (b = newline)) = true := by
    cases triple with
    | false => simpa using hline rfl
    | true => simp
  simp only [Reader.read, Reader.readString, if_neg hescape, if_neg hdollar, if_neg hbreak]
  cases triple with
  | false =>
    have hb : b ≠ q := by
      rintro rfl
      exact hend (by simp [quotes])
    rw [if_neg hb]
  | true =>
    have hmore : b = q → ¬ [q, q].isPrefixOf (c :: w) = true := by
      rintro rfl hqq
      exact hend ((List.prefix_cons_inj b).mpr (List.isPrefixOf_iff_prefix.mp hqq))
    split
    · rename_i hb
      rw [if_neg (by simp), if_neg (hmore hb)]
    · rfl

/-- A byte inside of a literal is read by itself. Its literal goes on for as long as its quotes, so
what follows cannot complete a mark. -/
theorem Reads.inLiteral
    (hraw : raw = false → b ≠ backslash ∧ ¬ [byte '$', byte '{'] <+: b :: w)
    (hline : triple = false → b ≠ newline) (hend : ¬ quotes q triple <+: b :: w)
    (hlen : (quotes q triple).length ≤ w.length) (hw : Reads stops (.literal q triple raw) w l) :
    Reads stops (.literal q triple raw) (b :: w) (.string :: l) := by
  intro hq fs a region rest hstop
  have hpos : 0 < (quotes q triple).length := by cases triple <;> exact Nat.succ_pos _
  have hne : w ≠ [] := List.ne_nil_of_length_pos (hpos.trans_le hlen)
  have hraw' : raw = false → b ≠ backslash ∧ ¬ [byte '$', byte '{'] <+: b :: (w ++ rest) := by
    have hmark : [byte '$', byte '{'].length ≤ (b :: w).length :=
      Nat.succ_le_succ (List.length_pos_of_ne_nil hne)
    exact fun h => (hraw h).imp_right (mt (prefix_append_of_length_le hmark).mp)
  have hend' : ¬ quotes q triple <+: b :: (w ++ rest) :=
    mt (prefix_append_of_length_le (w := b :: w) (Nat.le_succ_of_le hlen)).mp hend
  have hread : (⟨.string q triple raw :: fs, 0, a, region⟩ : Reader).read b (w ++ rest) =
      some ⟨.string q triple raw :: fs, 0, Byte.isIdentifier b, region⟩ :=
    read_inLiteral hraw' hline hend' (List.append_ne_nil_of_left_ne_nil hne rest)
  exact .cons hread (hstop _ (List.suffix_cons _ _)) (hw hq fs _ region rest hstop)

end Literal

/-- A reader goes over a phrase as it was derived. -/
theorem Derives.reads {p : Phrase} (h : Derives p w l) (stops : Reader → Bool) :
    Reads stops p w l := by
  induction h with
  | nil a => exact fun fs region rest _ _ _ => ⟨a, region, rfl, .nil _⟩
  | lineComment hv _ ih => exact ih.lineComment hv
  | blockComment hv _ ihv ihw => exact ihv.blockComment hv.regions_eq ihw
  | literal hq hraw hgreedy hv _ ihv ihw =>
    exact .contents_literal hq hraw hgreedy ihv hv.regions_eq ihw
  | group hb _ _ ihv ihw => exact ihv.group hb ihw
  | plain hcomment hliteral hopen hclose _ ih => exact ih.plain hcomment hliteral hopen hclose
  | endBlock => exact .endBlock
  | nest _ _ ihv ihw => exact ihv.nest ihw
  | inBlock hnest hend hw ih =>
    exact ih.inBlock hnest hend (Nat.zero_lt_of_lt hw.mark_suffix.length_le)
  | endLiteral q triple raw => exact .endLiteral q triple raw
  | escape _ ih => exact ih.escape
  | interpolation hv _ ihv ihw => exact ihv.interpolation hv.length_eq ihw
  | inLiteral hraw hline hend hw ih => exact ih.inLiteral hraw hline hend hw.mark_suffix.length_le

end Reads

/-! ## Matching brackets -/

section Matching

variable {b c : Byte} {text v w : Text} {opener closer : Nat}

/-- A bracket is closed behind a stretch exactly when the stretch is balanced. -/
theorem lengthToRest_eq_iff (hb : closerOf? b = some c) :
    (Reader.inside c).lengthToRest (v ++ c :: w) = some (v.length + 1) ↔ Balanced v := by
  obtain ⟨hcloser, -, -, hinert⟩ := closerOf?_spec hb
  constructor
  · intro h
    obtain ⟨v', l, w', hcut, hlen, hv⟩ := Reader.derives_of_lengthToRest h
    obtain ⟨rfl, -⟩ := List.append_inj hcut (Nat.succ_inj.mp hlen)
    exact ⟨l, hv⟩
  · rintro ⟨l, hv⟩
    have hstop (t : Reader) (h : [.bracket c] <:+ t.frames) : t.atRest = false := by
      cases hrest : t.atRest with
      | false => rfl
      | true =>
        rw [(Reader.atRest_iff.mp hrest).1] at h
        simp at h
    obtain ⟨a, region, -, hgoes⟩ := hv.reads Reader.atRest [.bracket c] .code (c :: w)
      (Or.inr ⟨c, [], rfl⟩) hstop (inert_cons.mpr hinert)
    have hclose : (⟨[.bracket c], 0, a, region⟩ : Reader).lengthToRest (c :: w) = some 1 :=
      Reader.Level.lengthToRest (s := {}) ⟨rfl, rfl, rfl⟩ hcloser w
    rw [Reader.inside, Reader.lengthToRest_follow hgoes.runUntil, hclose, Option.map_some,
      Nat.add_comm]

/-- A match cuts a text into what is in front of the bracket, its balanced contents, and the
rest. -/
theorem exists_of_matchingBracket_eq_some (h : matchingBracket text opener = some closer) :
    ∃ before b contents c rest, text = before ++ b :: (contents ++ c :: rest) ∧
      opener = before.length ∧ closer = before.length + 1 + contents.length ∧
      closerOf? b = some c ∧ Balanced contents := by
  obtain ⟨b, c, n, rest, hd, hb, hn, rfl⟩ := exists_of_matchingBracket h
  obtain ⟨contents, l, rest, rfl, rfl, hl⟩ := Reader.derives_of_lengthToRest hn
  have hle : opener ≤ text.length := by
    by_contra hlt
    rw [List.drop_of_length_le (Nat.le_of_not_le hlt)] at hd
    simp at hd
  refine ⟨text.take opener, b, contents, c, rest, ?_, ?_, ?_, hb, l, hl⟩
  · rw [← hd, List.take_append_drop]
  · rw [List.length_take_of_le hle]
  · rw [List.length_take_of_le hle]
    omega

/-- Two bytes of a text cut it. -/
theorem exists_cut (hopener : text[opener]? = some b) (hlt : opener < closer)
    (hcloser : text[closer]? = some c) : ∃ before contents rest,
      text = before ++ b :: (contents ++ c :: rest) ∧ opener = before.length ∧
        closer = before.length + 1 + contents.length := by
  have hcut {t : Text} {n : Nat} {x : Byte} (h : t[n]? = some x) :
      t = t.take n ++ x :: t.drop (n + 1) ∧ n = (t.take n).length := by
    obtain ⟨hn, rfl⟩ := List.getElem?_eq_some_iff.mp h
    rw [← List.drop_eq_getElem_cons, List.take_append_drop, List.length_take_of_le hn.le]
    exact ⟨rfl, rfl⟩
  obtain ⟨htext, hclose⟩ := hcut hcloser
  have hb : (text.take closer)[opener]? = some b := by
    rwa [List.getElem?_take_of_lt hlt]
  obtain ⟨hfront, hopen⟩ := hcut hb
  refine ⟨_, (text.take closer).drop (opener + 1), text.drop (closer + 1), ?_, hopen, ?_⟩
  · rw [← List.cons_append, ← List.append_assoc, ← hfront]
    exact htext
  · rw [← hopen, List.length_drop, ← hclose]
    omega

/-- The contents between two brackets are a slice of the text. -/
theorem slice_cut (before : Text) (b : Byte) (contents rest : Text) :
    ((before ++ b :: (contents ++ rest)).take (before.length + 1 + contents.length)).drop
      (before.length + 1) = contents := by
  rw [List.drop_take, ← List.drop_drop, List.drop_left, List.drop_succ_cons, List.drop_zero,
    Nat.add_sub_cancel_left, List.take_left]

/-- A closer matches an opening bracket exactly when it is the bracket's own and the source between
the two is balanced. -/
theorem matchingBracket_eq_some_iff : matchingBracket text opener = some closer ↔
    ∃ b c, text[opener]? = some b ∧ closerOf? b = some c ∧ opener < closer ∧
      text[closer]? = some c ∧ Balanced ((text.take closer).drop (opener + 1)) := by
  constructor
  · intro h
    obtain ⟨before, b, contents, c, rest, rfl, rfl, rfl, hb, hbalanced⟩ :=
      exists_of_matchingBracket_eq_some h
    refine ⟨b, c, by simp, hb, by omega, ?_, by rwa [slice_cut]⟩
    rw [List.getElem?_append_right (by omega),
      show before.length + 1 + contents.length - before.length = contents.length + 1 by omega]
    simp
  · rintro ⟨b, c, hopener, hb, hlt, hcloser, hbalanced⟩
    obtain ⟨before, contents, rest, rfl, rfl, rfl⟩ := exists_cut hopener hlt hcloser
    rw [slice_cut] at hbalanced
    exact (matchingBracket_eq_iff rfl hb).mpr ((lengthToRest_eq_iff hb).mpr hbalanced)

end Matching

end FlutterScaffold.Dart
