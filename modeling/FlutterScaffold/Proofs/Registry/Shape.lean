import FlutterScaffold.Proofs.Text.Bytes
import FlutterScaffold.Proofs.Text.Lines
import FlutterScaffold.Registry.Pattern

/-!
# What the patterns of a registry recognize

A pattern is told by the shape of the texts it accepts: `import?_eq_some_iff` and
`nameConstant?_eq_some_iff` spell both shapes out. The last match of a pattern over the lines of a
text stands in one line, ends with the semicolon of that shape, and no later line has a match.
-/

namespace FlutterScaffold.Registry

open FlutterScaffold.Text (after? after?_eq_some_iff firstLine lastLine lines)
open Byte (newline quote isSpace isIdentifier)

/-- Everything up to a byte is told by the first occurrence of the byte. -/
theorem through?_eq_some_iff {stop : Byte} {t rest : Text} :
    through? stop t = some rest ↔ ∃ m, t = m ++ stop :: rest ∧ stop ∉ m := by
  rw [through?, after?_eq_some_iff]
  constructor
  · intro h
    refine ⟨t.takeWhile (· != stop), ?_, ?_⟩
    · rw [← List.singleton_append, ← h, List.takeWhile_append_dropWhile]
    · intro hmem
      simpa using List.mem_takeWhile_imp hmem
  · rintro ⟨m, rfl, hm⟩
    have hall : ∀ b ∈ m, (b != stop) = true := fun b hb => by
      simpa using fun h : b = stop => hm (h ▸ hb)
    rw [List.dropWhile_append_of_pos hall]
    simp

/-- Spaces are skipped exactly up to a byte that is none. -/
theorem skipSpace_append {s t : Text} (hs : ∀ b ∈ s, isSpace b) (ht : t.head?.all (!isSpace ·)) :
    skipSpace (s ++ t) = t := by
  rw [skipSpace, List.dropWhile_append_of_pos hs]
  cases t with
  | nil => rfl
  | cons b t => simpa using ht

/-- A text is its leading spaces and what stands behind them. -/
theorem exists_skipSpace (t : Text) :
    ∃ s, t = s ++ skipSpace t ∧ (∀ b ∈ s, isSpace b) ∧ (skipSpace t).head?.all (!isSpace ·) := by
  refine ⟨t.takeWhile isSpace, (List.takeWhile_append_dropWhile).symm, ?_, ?_⟩
  · exact fun b hb => List.mem_takeWhile_imp hb
  · rw [skipSpace]
    have h := List.head?_dropWhile_not isSpace t
    cases hd : (t.dropWhile isSpace).head? with
    | none => rfl
    | some b => simpa [hd] using h

/-- A keyword is a word and at least one space. -/
theorem keyword?_eq_some_iff {word : String} {t rest : Text} :
    keyword? word t = some rest ↔ ∃ s, t = lit word ++ (s ++ rest) ∧ s ≠ [] ∧
      (∀ b ∈ s, isSpace b) ∧ rest.head?.all (!isSpace ·) := by
  rw [keyword?, Option.bind_eq_some_iff]
  constructor
  · rintro ⟨u, hu, hr⟩
    rw [after?_eq_some_iff] at hu
    cases u with
    | nil => simp [spaces?] at hr
    | cons b u =>
      simp only [spaces?] at hr
      split at hr
      · rename_i hb
        obtain rfl := Option.some.inj hr
        obtain ⟨s, hs, hall, hhead⟩ := exists_skipSpace u
        refine ⟨b :: s, ?_, by simp, ?_, hhead⟩
        · rw [hu, List.cons_append, ← hs]
        · simpa using ⟨hb, hall⟩
      · simp at hr
  · rintro ⟨s, rfl, hne, hs, hhead⟩
    refine ⟨s ++ rest, after?_eq_some_iff.mpr rfl, ?_⟩
    cases s with
    | nil => exact absurd rfl hne
    | cons b s =>
      obtain ⟨hb, hs⟩ := List.forall_mem_cons.mp hs
      rw [List.cons_append, spaces?, if_pos hb, skipSpace_append hs hhead]

/-- The head of an import statement up to its semicolon. -/
def IsImport (m : Text) : Prop :=
  ∃ s₁ s₂ path more, m = s₁ ++ (lit "import" ++ (s₂ ++ quote :: (path ++ quote ::
    (more ++ [byte ';'])))) ∧ (∀ b ∈ s₁, isSpace b) ∧ s₂ ≠ [] ∧ (∀ b ∈ s₂, isSpace b) ∧
    path ≠ [] ∧ quote ∉ path ∧ byte ';' ∉ more

/-- An import statement is recognized exactly up to the first semicolon behind its path. -/
theorem import?_eq_some_iff {t rest : Text} : import? t = some rest ↔
    ∃ m, t = m ++ rest ∧ IsImport m := by
  simp only [import?, Option.bind_eq_bind, Option.bind_eq_some_iff]
  constructor
  · rintro ⟨u, hu, v, hv, hr⟩
    obtain ⟨s₁, ht, hs₁, -⟩ := exists_skipSpace t
    obtain ⟨s₂, hw, hne, hs₂, -⟩ := keyword?_eq_some_iff.mp hu
    have huv := after?_eq_some_iff.mp hv
    split at hr
    · simp at hr
    · rename_i hq
      obtain ⟨w, hw', hr⟩ := Option.bind_eq_some_iff.mp hr
      obtain ⟨path, hp, hqp⟩ := through?_eq_some_iff.mp hw'
      obtain ⟨more, hm, hsm⟩ := through?_eq_some_iff.mp hr
      refine ⟨_, ?_, s₁, s₂, path, more, rfl, hs₁, hne, hs₂, ?_, hqp, hsm⟩
      · rw [ht, hw, huv, hp, hm]
        simp
      · rintro rfl
        exact hq (by rw [hp]; rfl)
  · rintro ⟨m, rfl, s₁, s₂, path, more, rfl, hs₁, hne, hs₂, hpath, hqp, hsm⟩
    have hskip := skipSpace_append (t := lit "import" ++ (s₂ ++ quote :: (path ++ quote ::
      (more ++ [byte ';'] ++ rest)))) hs₁ rfl
    have hhead : (path ++ quote :: (more ++ [byte ';'] ++ rest)).head? ≠ some quote := by
      cases path with
      | nil => exact absurd rfl hpath
      | cons b path => exact fun h => hqp (by simp [Option.some.inj h])
    refine ⟨quote :: (path ++ quote :: (more ++ [byte ';'] ++ rest)), ?_,
      path ++ quote :: (more ++ [byte ';'] ++ rest), after?_eq_some_iff.mpr rfl, ?_⟩
    · simp only [List.append_assoc, List.cons_append] at hskip ⊢
      rw [hskip]
      exact keyword?_eq_some_iff.mpr ⟨s₂, rfl, hne, hs₂, rfl⟩
    · rw [if_neg hhead]
      refine Option.bind_eq_some_iff.mpr ⟨more ++ [byte ';'] ++ rest, ?_, ?_⟩
      · exact through?_eq_some_iff.mpr ⟨path, rfl, hqp⟩
      · exact through?_eq_some_iff.mpr ⟨more, by simp, hsm⟩

/-- A declaration of a string constant whose name ends in `Name`. -/
def IsNameConstant (m : Text) : Prop :=
  ∃ s₁ s₂ s₃ s₄ s₅ s₆ word value, m = lit "static" ++ (s₁ ++ (lit "const" ++ (s₂ ++
    (lit "String" ++ (s₃ ++ (word ++ (s₄ ++ (lit "=" ++ (s₅ ++ quote :: (value ++ quote ::
    (s₆ ++ [byte ';']))))))))))) ∧
    (s₁ ≠ [] ∧ s₂ ≠ [] ∧ s₃ ≠ []) ∧ (∀ s ∈ [s₁, s₂, s₃, s₄, s₅, s₆], ∀ b ∈ s, isSpace b) ∧
    (∀ b ∈ word, isIdentifier b) ∧ isNameConstant word ∧ quote ∉ value

/-- A word ends in front of the first byte that cannot continue it. -/
theorem takeWhile_word {p : Byte → Bool} {word t : Text} (hword : ∀ b ∈ word, p b)
    (ht : t.head?.all (!p ·)) :
    (word ++ t).takeWhile p = word ∧ (word ++ t).dropWhile p = t := by
  rw [List.takeWhile_append_of_pos hword, List.dropWhile_append_of_pos hword]
  cases t with
  | nil => simp
  | cons b t =>
    have hb : ¬ p b = true := by simpa using ht
    simp [hb]

/-- What follows the word of a name constant: an equals sign, its value and a semicolon. -/
def constantValue? : Pattern := fun t => do
  let t ← after? (lit "=") (skipSpace t)
  let t ← after? [quote] (skipSpace t)
  let t ← through? quote t
  after? (lit ";") (skipSpace t)

theorem constantValue?_eq_some_iff {t rest : Text} : constantValue? t = some rest ↔
    ∃ s₁ s₂ s₃ value, t = s₁ ++ (lit "=" ++ (s₂ ++ ([quote] ++ (value ++ quote ::
      (s₃ ++ (lit ";" ++ rest)))))) ∧
      (∀ b ∈ s₁, isSpace b) ∧ (∀ b ∈ s₂, isSpace b) ∧ (∀ b ∈ s₃, isSpace b) ∧ quote ∉ value := by
  simp only [constantValue?, Option.bind_eq_bind, Option.bind_eq_some_iff, after?_eq_some_iff,
    through?_eq_some_iff]
  constructor
  · rintro ⟨t₁, h₁, t₂, h₂, t₃, ⟨value, hv, hquote⟩, h₃⟩
    obtain ⟨s₁, hs₁, hall₁, -⟩ := exists_skipSpace t
    obtain ⟨s₂, hs₂, hall₂, -⟩ := exists_skipSpace t₁
    obtain ⟨s₃, hs₃, hall₃, -⟩ := exists_skipSpace t₃
    exact ⟨s₁, s₂, s₃, value, by rw [hs₁, h₁, hs₂, h₂, hv, hs₃, h₃], hall₁, hall₂, hall₃, hquote⟩
  · rintro ⟨s₁, s₂, s₃, value, rfl, hs₁, hs₂, hs₃, hquote⟩
    exact ⟨_, skipSpace_append hs₁ rfl, _, skipSpace_append hs₂ rfl, _, ⟨value, rfl, hquote⟩,
      skipSpace_append hs₃ rfl⟩

/-- A name constant is recognized exactly up to its semicolon. -/
theorem nameConstant?_eq_some_iff {t rest : Text} :
    nameConstant? t = some rest ↔ ∃ m, t = m ++ rest ∧ IsNameConstant m := by
  have hvalue (t : Text) : nameConstant? t = (keyword? "static" t).bind fun t =>
      (keyword? "const" t).bind fun t => (keyword? "String" t).bind fun t =>
        if isNameConstant (t.takeWhile isIdentifier) then constantValue? (t.dropWhile isIdentifier)
        else none := rfl
  simp only [hvalue, Option.bind_eq_some_iff, keyword?_eq_some_iff]
  constructor
  · rintro ⟨t₁, ⟨s₁, rfl, hne₁, hs₁, -⟩, t₂, ⟨s₂, rfl, hne₂, hs₂, -⟩, t₃, ⟨s₃, rfl, hne₃, hs₃, -⟩,
      hr⟩
    split_ifs at hr with hname
    obtain ⟨s₄, s₅, s₆, value, ht, hs₄, hs₅, hs₆, hquote⟩ := constantValue?_eq_some_iff.mp hr
    refine ⟨_, ?_, s₁, s₂, s₃, s₄, s₅, s₆, t₃.takeWhile isIdentifier, value, rfl,
      ⟨hne₁, hne₂, hne₃⟩, by simp; tauto, fun b hb => List.mem_takeWhile_imp hb, hname, hquote⟩
    conv_lhs => rw [← List.takeWhile_append_dropWhile (p := isIdentifier) (l := t₃), ht]
    simp [lit]
    rfl
  · rintro ⟨m, rfl, s₁, s₂, s₃, s₄, s₅, s₆, word, value, rfl, ⟨hne₁, hne₂, hne₃⟩, hs, hword, hname,
      hquote⟩
    simp only [List.forall_mem_cons] at hs
    obtain ⟨hs₁, hs₂, hs₃, hs₄, hs₅, hs₆, -⟩ := hs
    obtain ⟨t, ht⟩ : ∃ t, t = s₄ ++ (lit "=" ++ (s₅ ++ ([quote] ++ (value ++ quote ::
      (s₆ ++ (lit ";" ++ rest)))))) := ⟨_, rfl⟩
    have hend : t.head?.all (!isIdentifier ·) := by
      rw [ht]
      cases s₄ with
      | nil => rfl
      | cons b s₄ => simpa using Byte.not_isIdentifier_of_isSpace b (hs₄ b (by simp))
    have hstart : (word ++ t).head?.all (!isSpace ·) := by
      cases word with
      | nil => exact absurd hname (by decide)
      | cons c word => simpa using Byte.not_isSpace_of_isIdentifier c (hword c (by simp))
    obtain ⟨htake, hdrop⟩ := takeWhile_word hword hend
    refine ⟨lit "const" ++ (s₂ ++ (lit "String" ++ (s₃ ++ (word ++ t)))), ⟨s₁, ?_, hne₁, hs₁, rfl⟩,
      lit "String" ++ (s₃ ++ (word ++ t)), ⟨s₂, rfl, hne₂, hs₂, rfl⟩, word ++ t,
      ⟨s₃, rfl, hne₃, hs₃, hstart⟩, ?_⟩
    · rw [ht]
      simp [lit]
      rfl
    · rw [htake, if_pos hname, hdrop]
      exact constantValue?_eq_some_iff.mpr ⟨s₄, s₅, s₆, value, ht, hs₄, hs₅, hs₆, hquote⟩

/-! ## Last matches -/

/-- What a text is cut into where a pattern matches: what precedes, the match, and the rest. -/
theorem headEnd?_eq_some {p : Pattern} {t : Text} {n : Nat} (h : headEnd? p t = some n) :
    ∃ rest, p t = some rest ∧ n = t.length - rest.length := by
  obtain ⟨rest, hr, rfl⟩ := Option.map_eq_some_iff.mp h
  exact ⟨rest, hr, rfl⟩

/-- The last match in a line ends a match of the pattern somewhere in the line. -/
theorem exists_of_lastEnd? {p : Pattern} {skip : Nat} {t : Text} {n : Nat}
    (h : lastEnd? p skip t = some n) :
    ∃ a b rest, t = a ++ b ∧ p b = some rest ∧ n = a.length + (b.length - rest.length) := by
  induction t generalizing skip n with
  | nil => simp [lastEnd?] at h
  | cons x t ih =>
    have hlater {skip m : Nat} (hm : lastEnd? p skip t = some m) (hn : n = m + 1) :
        ∃ a b rest, x :: t = a ++ b ∧ p b = some rest ∧
          n = a.length + (b.length - rest.length) := by
      obtain ⟨a, b, rest, rfl, hb, rfl⟩ := ih hm
      exact ⟨x :: a, b, rest, rfl, hb, by rw [hn, List.length_cons]; omega⟩
    cases skip with
    | succ skip =>
      obtain ⟨m, hm, hn⟩ := Option.map_eq_some_iff.mp h
      exact hlater hm hn.symm
    | zero =>
      simp only [lastEnd?] at h
      split at h
      · obtain ⟨m, hm, hn⟩ := Option.map_eq_some_iff.mp h
        exact hlater hm hn.symm
      · rename_i k hk
        cases hm : lastEnd? p (k - 1) t with
        | none =>
          obtain ⟨rest, hr, hk'⟩ := headEnd?_eq_some hk
          have hn : n = k := by simpa [hm] using h.symm
          exact ⟨[], x :: t, rest, rfl, hr, by rw [hn, hk']; simp⟩
        | some m => exact hlater hm (by simpa [hm] using h.symm)

private theorem lastOfLines?_append (endOf? : Text → Option Nat) {earlier : List Text}
    (hne : earlier ≠ []) (later : List Text) : lastOfLines? endOf? (earlier ++ later) =
      ((lastOfLines? endOf? later).map
        (· + ((List.intercalate [newline] earlier).length + 1))).or
          (lastOfLines? endOf? earlier) := by
  induction earlier with
  | nil => exact absurd rfl hne
  | cons line more ih =>
    cases more with
    | nil => simp [lastOfLines?]
    | cons next more =>
      have hlen : (List.intercalate [newline] (line :: next :: more)).length =
          (List.intercalate [newline] (next :: more)).length + (line.length + 1) := by
        simp [List.intercalate]
        omega
      rw [List.cons_append, lastOfLines?, ih (by simp), hlen,
        lastOfLines?.eq_def endOf? (line :: next :: more)]
      cases lastOfLines? endOf? later with
      | none => simp [Nat.add_assoc]
      | some n =>
        simp only [Option.map_some, Option.some_or, Option.some.injEq]
        omega

/-- Lines are scanned from the last one back. -/
theorem lastOfLines?_append_cons (endOf? : Text → Option Nat) (a b : Text) :
    lastOfLines? endOf? (lines (a ++ newline :: b)) =
      ((lastOfLines? endOf? (lines b)).map (· + (a.length + 1))).or
        (lastOfLines? endOf? (lines a)) := by
  rw [lines, Text.cut_append_cons, lastOfLines?_append endOf? (Text.cut_ne_nil newline a),
    Text.intercalate_cut]
  rfl

/-- A text without a newline is scanned as one line. -/
theorem lastOfLines?_of_not_mem (endOf? : Text → Option Nat) {l : Text} (h : newline ∉ l) :
    lastOfLines? endOf? (lines l) = endOf? l := by
  rw [lines, Text.cut_eq_singleton h]
  simp [lastOfLines?]

/-- The last answer stands in one line, which starts the text or follows a newline, and no later
line has an answer. -/
theorem exists_of_lastOfLines? {endOf? : Text → Option Nat} {t : Text} {n : Nat}
    (h : lastOfLines? endOf? (lines t) = some n) :
    ∃ a b k, t = a ++ b ∧ lastLine a = [] ∧ endOf? (firstLine b) = some k ∧ n = a.length + k ∧
      lastOfLines? endOf? (lines b).tail = none := by
  induction hlen : t.length using Nat.strong_induction_on generalizing t n with
  | _ len ih =>
    rcases Text.exists_firstLine t with ht | ⟨l, rest, rfl, hl⟩
    · rw [lastOfLines?_of_not_mem _ ht] at h
      exact ⟨[], t, n, rfl, rfl, by rwa [Text.firstLine_of_not_mem ht], by simp,
        by rw [lines, Text.cut_eq_singleton ht]; rfl⟩
    · rw [lastOfLines?_append_cons] at h
      cases hm : lastOfLines? endOf? (lines rest) with
      | none =>
        rw [hm, Option.map_none, Option.none_or, lastOfLines?_of_not_mem _ hl] at h
        refine ⟨[], l ++ newline :: rest, n, rfl, rfl, by rwa [Text.firstLine_append_cons hl],
          by simp, ?_⟩
        rw [lines, Text.cut_append_cons, Text.cut_eq_singleton hl]
        exact hm
      | some m =>
        rw [hm, Option.map_some, Option.some_or, Option.some.injEq] at h
        obtain ⟨a, b, k, rfl, ha, hk, rfl, hlater⟩ :=
          ih rest.length (by simp [← hlen]; omega) hm rfl
        refine ⟨l ++ newline :: a, b, k, by simp, ?_, hk, ?_, hlater⟩
        · rcases Text.exists_lastLine a with hna | ⟨a, l', rfl, hl'⟩
          · rw [Text.lastLine_of_not_mem hna] at ha
            rw [ha, Text.lastLine_append_cons (by simp)]
          · rw [Text.lastLine_append_cons hl'] at ha
            rw [← List.cons_append, ← List.append_assoc, Text.lastLine_append_cons hl', ha]
        · rw [← h, List.length_append, List.length_cons]
          omega

/-- From the start of a line on, a text is scanned as a text of its own. -/
theorem lastOfLines?_append_of_lastLine (endOf? : Text → Option Nat) {a b : Text} {n : Nat}
    (ha : lastLine a = []) (hb : lastOfLines? endOf? (lines b) = some n) :
    lastOfLines? endOf? (lines (a ++ b)) = some (a.length + n) := by
  rcases Text.eq_nil_or_of_lastLine_eq_nil ha with rfl | ⟨a, rfl⟩
  · simpa using hb
  · rw [List.append_assoc, List.singleton_append, lastOfLines?_append_cons, hb, List.length_append]
    simp
    omega

/-- When no later line has an answer, a text is asked about its first line. -/
theorem lastOfLines?_append_of_tail (endOf? : Text → Option Nat) {l r : Text} (hl : newline ∉ l)
    (hr : lastOfLines? endOf? (lines r).tail = none) :
    lastOfLines? endOf? (lines (l ++ r)) = endOf? (l ++ firstLine r) := by
  rw [← Text.firstLine_append hl]
  rw [← Text.tail_lines_append hl] at hr
  rcases Text.exists_firstLine (l ++ r) with hnot | ⟨f, b, heq, hf⟩
  · rw [lastOfLines?_of_not_mem _ hnot, Text.firstLine_of_not_mem hnot]
  · rw [heq, lines, Text.cut_append_cons, Text.cut_eq_singleton hf] at hr
    have hb : lastOfLines? endOf? (lines b) = none := hr
    rw [heq, Text.firstLine_append_cons hf, lastOfLines?_append_cons, hb,
      lastOfLines?_of_not_mem _ hf]
    rfl

/-- An import stands at the start of its line, and no later line starts with one. -/
theorem importEnd?_eq_some_iff {t : Text} {e : Nat} : importEnd? t = some e ↔
    ∃ a m r, t = a ++ (m ++ r) ∧ lastLine a = [] ∧ newline ∉ m ∧ IsImport m ∧
      e = (a ++ m).length ∧ lastOfLines? (headEnd? import?) (lines r).tail = none := by
  constructor
  · intro h
    obtain ⟨a, b, k, rfl, ha, hk, rfl, hlater⟩ := exists_of_lastOfLines? h
    obtain ⟨rest, hr, rfl⟩ := headEnd?_eq_some hk
    obtain ⟨m, hm, himp⟩ := import?_eq_some_iff.mp hr
    obtain ⟨r, hb, -⟩ := Text.exists_append_firstLine b
    have hnl := Text.newline_not_mem_firstLine b
    rw [hm] at hnl hb
    have hnm : newline ∉ m := fun h => hnl (List.mem_append_left _ h)
    refine ⟨a, m, rest ++ r, ?_, ha, hnm, himp, ?_, ?_⟩
    · rw [hb, List.append_assoc]
    · rw [hm, List.length_append, List.length_append]
      omega
    · rwa [hb, List.append_assoc, Text.tail_lines_append hnm] at hlater
  · rintro ⟨a, m, r, rfl, ha, hnm, himp, rfl, hlater⟩
    rw [List.length_append]
    refine lastOfLines?_append_of_lastLine _ ha ?_
    rw [lastOfLines?_append_of_tail _ hnm hlater]
    rw [headEnd?, import?_eq_some_iff.mpr ⟨m, rfl, himp⟩]
    simp

/-- The last name constant stands in one line, and no later line holds one. -/
theorem exists_of_nameConstantEnd? {t : Text} {c : Nat} (h : nameConstantEnd? t = some c) :
    ∃ a m r, t = a ++ (m ++ r) ∧ newline ∉ m ∧ IsNameConstant m ∧ c = (a ++ m).length ∧
      lastOfLines? (lastEnd? nameConstant? 0) (lines r).tail = none := by
  obtain ⟨a, b, k, rfl, ha, hk, rfl, hlater⟩ := exists_of_lastOfLines? h
  obtain ⟨a', b', rest, hfirst, hr, rfl⟩ := exists_of_lastEnd? hk
  obtain ⟨m, rfl, hconst⟩ := nameConstant?_eq_some_iff.mp hr
  obtain ⟨r, hb, -⟩ := Text.exists_append_firstLine b
  have hnl := Text.newline_not_mem_firstLine b
  rw [hfirst] at hnl hb
  refine ⟨a ++ a', m, rest ++ r, ?_, ?_, hconst, ?_, ?_⟩
  · rw [hb]
    simp
  · exact fun h => hnl (by simp [h])
  · simp only [List.length_append]
    omega
  · rw [hb, ← List.append_assoc a', List.append_assoc (a' ++ m), Text.tail_lines_append] at hlater
    · exact hlater
    · rw [← List.append_assoc] at hnl
      exact fun h => hnl (List.mem_append_left _ h)

end FlutterScaffold.Registry
