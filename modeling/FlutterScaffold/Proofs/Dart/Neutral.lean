import FlutterScaffold.Proofs.Dart.Stretch
import FlutterScaffold.Dart.Literal

/-!
# Text that leaves a reader where it was

Code without comments, whose literals are closed and whose parentheses are balanced, changes nothing
for a reader of code but the question whether the last byte could belong to a name
(`Neutral.follow`). So such text may be written between two brackets without loosening the match.
-/

namespace FlutterScaffold.Dart

/-- Bytes of code that open and close nothing. -/
def isPlain (b : Byte) : Bool :=
  !isQuote b && b != Byte.slash && (closerOf? b).isNone && !isCloser b

/-- Bytes that stand for themselves in a literal between single quotes. -/
def isVerbatim (b : Byte) : Bool := !needsEscape b && b != Byte.newline

/-- Text that brings a reader of code back to where it was: plain bytes, literals that a semicolon
follows, and balanced parentheses behind a name. -/
inductive Neutral : Text → Prop where
  | plain {w : Text} : (∀ b ∈ w, isPlain b) → w.getLast? ≠ some (byte 'r') → Neutral w
  | literal {v : Text} : (∀ b ∈ v, isVerbatim b) →
      Neutral (Byte.quote :: (v ++ [Byte.quote, byte ';']))
  | paren {v w : Text} : (∀ b ∈ v, isPlain b) → Neutral w →
      Neutral (v ++ byte '(' :: (w ++ [byte ')']))
  | append {v w : Text} : Neutral v → Neutral w → Neutral (v ++ w)

namespace Reader

variable {s : Reader} {b closer : Byte} {fs : List Frame} {rest v w : Text}

theorem read_plain (hf : s.frames = .bracket closer :: fs) (hp : s.pending = 0)
    (hb : isPlain b = true) (hr : b = byte 'r' → ∀ q ∈ rest.head?, isQuote q = false) :
    s.read b rest = some { s with afterName := Byte.isIdentifier b } := by
  obtain ⟨frames, pending, afterName, region⟩ := s
  simp only [isPlain, Bool.and_eq_true, Bool.not_eq_true', bne_iff_ne, Option.isNone_iff_eq_none]
    at hb
  obtain ⟨⟨⟨hquote, hslash⟩, hopen⟩, hclose⟩ := hb
  have hnone : opening? afterName b rest = none := opening?_eq_none hslash hquote hr
  subst hf hp
  simp only [read, hnone, readBracketed, hopen, hclose, Bool.false_eq_true, if_false]

/-- Where something is open, a stretch whose bytes each change nothing but what follows a name
changes nothing else. -/
private theorem follow_of_read (hf : s.frames ≠ []) (hw : ∀ (a : Bool) (b : Byte) (y : Text),
      b :: y <:+ w → ({ s with afterName := a } : Reader).read b (y ++ rest) =
        some { s with afterName := Byte.isIdentifier b }) :
    ∃ a, s.follow rest w = some { s with afterName := a } := by
  induction w generalizing s with
  | nil => exact ⟨s.afterName, rfl⟩
  | cons b w ih =>
    obtain ⟨a, ha⟩ := ih (s := { s with afterName := Byte.isIdentifier b }) hf
      fun a c y hy => hw a c y (hy.trans (List.suffix_cons b w))
    have hread := hw s.afterName b w (List.suffix_refl _)
    exact ⟨a, (runUntil_cons_of_read hread (by simp [atRest, hf])).trans ha⟩

/-- Plain bytes change nothing that is open. -/
private theorem follow_plain (rest : Text) (hw : ∀ b ∈ w, isPlain b)
    (hr : w.getLast? = some (byte 'r') → ∀ q ∈ rest.head?, isQuote q = false)
    (hf : s.frames = .bracket closer :: fs) (hp : s.pending = 0) :
    ∃ a, s.follow rest w = some { s with afterName := a } := by
  refine follow_of_read (by simp [hf]) fun a b y hy => ?_
  refine read_plain hf hp (hw b (hy.subset (List.mem_cons_self ..))) ?_
  rintro rfl
  cases y with
  | nil =>
    obtain ⟨u, rfl⟩ := hy
    exact hr List.getLast?_concat
  | cons c y =>
    have hc := hw c (hy.subset (List.mem_cons_of_mem _ (List.mem_cons_self ..)))
    simp only [isPlain, Bool.and_eq_true, Bool.not_eq_true'] at hc
    simp [hc.1.1.1]

/-- A verbatim byte of a literal changes nothing that is open. -/
theorem read_verbatim (hf : s.frames = .string Byte.quote false false :: fs) (hp : s.pending = 0)
    (hb : isVerbatim b = true) (rest : Text) :
    s.read b rest = some { s with afterName := Byte.isIdentifier b } := by
  simp only [isVerbatim, needsEscape, Bool.and_eq_true, Bool.not_eq_true',
    Bool.or_eq_false_iff, beq_eq_false_iff_ne, bne_iff_ne] at hb
  obtain ⟨⟨⟨hquote, hescape⟩, hdollar⟩, hnewline⟩ := hb
  obtain ⟨frames, pending, afterName, region⟩ := s
  subst hf hp
  simp [read, readString, hquote, hescape, hdollar, hnewline]

private theorem follow_verbatim (rest : Text) (hw : ∀ b ∈ w, isVerbatim b)
    (hf : s.frames = .string Byte.quote false false :: fs) (hp : s.pending = 0) :
    ∃ a, s.follow rest w = some { s with afterName := a } :=
  follow_of_read (by simp [hf]) fun a _ _ hy =>
    read_verbatim (s := { s with afterName := a }) hf hp
      (hw _ (hy.subset (List.mem_cons_self ..))) _

/-- A literal that a semicolon follows is closed where it ends. -/
private theorem follow_literal (rest : Text) (hv : ∀ b ∈ v, isVerbatim b)
    (hf : s.frames = .bracket closer :: fs) (hp : s.pending = 0) :
    ∃ a, s.follow rest (Byte.quote :: (v ++ [Byte.quote, byte ';'])) =
      some { s with afterName := a } := by
  obtain ⟨frames, pending, afterName, region⟩ := s
  subst hf hp
  have hnot : [Byte.quote, Byte.quote].isPrefixOf
      (v ++ [Byte.quote, byte ';'] ++ rest) = false := by
    cases v with
    | nil => rfl
    | cons c v =>
      have hc := hv c (List.mem_cons_self ..)
      simp only [isVerbatim, needsEscape, Bool.and_eq_true, Bool.not_eq_true',
        Bool.or_eq_false_iff, beq_eq_false_iff_ne] at hc
      simp [List.isPrefixOf, hc.1.1.1.symm]
  have hopen : opening? afterName Byte.quote (v ++ [Byte.quote, byte ';'] ++ rest) =
      some (.string Byte.quote false false, 0) := by
    rw [opening?_eq, if_neg (by decide), if_pos (by decide), stringFrame, hnot]
    rfl
  obtain ⟨opened, hopened⟩ : ∃ opened : Reader, opened =
      { frames := .string Byte.quote false false :: .bracket closer :: fs, region := region } :=
    ⟨_, rfl⟩
  have hfirst : ({ frames := .bracket closer :: fs, afterName := afterName, region := region } :
      Reader).read Byte.quote (v ++ [Byte.quote, byte ';'] ++ rest) = some opened := by
    simp only [read, hopen]
    rw [hopened]
    rfl
  have hbusy : opened.atRest = false := by simp [hopened, atRest]
  obtain ⟨a, ha⟩ := follow_verbatim ([Byte.quote, byte ';'] ++ rest) hv
    (congrArg frames hopened) (congrArg pending hopened)
  refine ⟨false, ?_⟩
  refine (runUntil_cons_of_read hfirst hbusy).trans ((runUntil_append_of ha).trans ?_)
  rw [hopened]
  rfl

end Reader

/-- Neutral text changes nothing that is open. -/
theorem Neutral.follow {w : Text} (hw : Neutral w) {s : Reader} {closer : Byte} {fs : List Frame}
    (rest : Text) (hf : s.frames = .bracket closer :: fs) (hp : s.pending = 0) :
    ∃ a, s.follow rest w = some { s with afterName := a } := by
  induction hw generalizing s closer fs rest with
  | plain hw hr => exact Reader.follow_plain rest hw (fun h => absurd h hr) hf hp
  | literal hv => exact Reader.follow_literal rest hv hf hp
  | @paren v w hv hw ih =>
    obtain ⟨a, ha⟩ := Reader.follow_plain (byte '(' :: (w ++ [byte ')']) ++ rest) hv
      (fun _ q hq => by rw [← Option.some.inj hq]; rfl) hf hp
    have hopen : ({ s with afterName := a } : Reader).read (byte '(') (w ++ [byte ')'] ++ rest) =
        some { s with frames := .bracket (byte ')') :: s.frames, afterName := false } := by
      obtain ⟨frames, pending, afterName, region⟩ := s
      subst hf hp
      rfl
    obtain ⟨c, hc⟩ := ih ([byte ')'] ++ rest)
      (s := { s with frames := .bracket (byte ')') :: s.frames, afterName := false }) rfl hp
    refine ⟨false, ?_⟩
    refine (Reader.runUntil_append_of ha).trans ((Reader.runUntil_cons_of_read hopen
      (by simp [Reader.atRest])).trans ((Reader.runUntil_append_of hc).trans ?_))
    obtain ⟨frames, pending, afterName, region⟩ := s
    subst hf hp
    rfl
  | @append v w hv hw ihv ihw =>
    obtain ⟨a, ha⟩ := ihv (w ++ rest) hf hp
    obtain ⟨c, hc⟩ := ihw (s := { s with afterName := a }) rest hf hp
    exact ⟨c, (Reader.runUntil_append_of ha).trans hc⟩

end FlutterScaffold.Dart
