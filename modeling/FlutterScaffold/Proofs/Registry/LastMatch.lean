import FlutterScaffold.Proofs.Registry.Recognition

/-!
# The last import and the last name constant

Where a statement is written, the line that it makes is to become the last match of its pattern. The
lines that matter are told without their margins, the form in which inserted text is described: a
text ends its imports with one when no line behind it starts with another
(`importEnd?_eq_some_iff_bare`), and its name constants with one when no line behind it holds
another (`nameConstantEnd?_eq_some`).
-/

namespace FlutterScaffold.Registry

open FlutterScaffold.Text (bareLines firstLine lastLine lines trim trimEnd trimStart)
open Byte (newline isMargin isBlank isSpace quote)

/-- A line that an import starts. -/
def StartsImport (l : Text) : Prop := ∃ m, m <+: l ∧ IsImport m

/-- A line that holds a name constant. -/
def HoldsConstant (l : Text) : Prop := ∃ m, m <:+: l ∧ IsNameConstant m

/-- No line behind the first starts with an import. -/
def Importless (t : Text) : Prop := ∀ l ∈ (bareLines t).tail, ¬ StartsImport l

/-- No line behind the first holds a name constant. -/
def Constantless (t : Text) : Prop := ∀ l ∈ (bareLines t).tail, ¬ HoldsConstant l

/-! ## Lines without their margins -/

/-- What ends with a byte outside the class is kept when the end of a text is trimmed. -/
theorem prefix_trimEnd {p : Byte → Bool} {c : Byte} {w t : Text} (h : w ++ [c] <+: t)
    (hc : p c = false) : w ++ [c] <+: trimEnd p t := by
  obtain ⟨r, rfl⟩ := h
  rw [trimEnd, List.reverse_append, List.dropWhile_append]
  split
  · simp [hc]
  · rw [List.reverse_append, List.reverse_reverse]
    exact List.prefix_append _ _

theorem trimEnd_isPrefix (p : Byte → Bool) (t : Text) : trimEnd p t <+: t := by
  rw [trimEnd, ← List.reverse_suffix, List.reverse_reverse]
  exact List.dropWhile_suffix p

/-- A line that starts with an import still does so when text follows it. -/
theorem StartsImport.append {l : Text} (h : StartsImport l) (r : Text) : StartsImport (l ++ r) := by
  obtain ⟨m, hm, himport⟩ := h
  exact ⟨m, hm.trans (List.prefix_append _ _), himport⟩

/-- Spaces in front of an import belong to it. -/
theorem IsImport.append_left {s m : Text} (hs : ∀ b ∈ s, isSpace b) (h : IsImport m) :
    IsImport (s ++ m) := by
  obtain ⟨s₁, s₂, path, more, rfl, hs₁, h⟩ := h
  exact ⟨s ++ s₁, s₂, path, more, by simp, List.forall_mem_append.mpr ⟨hs, hs₁⟩, h⟩

/-- An import keeps its form without the spaces in front of it. -/
theorem exists_isImport_of_append {s l m : Text} (hs : ∀ b ∈ s, isMargin b) (hm : m <+: s ++ l)
    (h : IsImport m) : StartsImport l := by
  obtain ⟨s₁, s₂, path, more, rfl, hs₁, h⟩ := h
  induction s generalizing s₁ with
  | nil => exact ⟨_, hm, s₁, s₂, path, more, rfl, hs₁, h⟩
  | cons b s ih =>
    obtain ⟨hb, hs⟩ := List.forall_mem_cons.mp hs
    cases s₁ with
    | nil =>
      obtain ⟨heq, -⟩ := List.cons_prefix_cons.mp (show byte 'i' :: _ <+: b :: (s ++ l) from hm)
      rw [← heq] at hb
      exact absurd hb (by decide)
    | cons c s₁ => exact ih hs s₁ (List.cons_prefix_cons.mp hm).2 (List.forall_mem_cons.mp hs₁).2

/-- Margins do not matter to an import at the start of a line. -/
theorem startsImport_trim_iff {l : Text} : StartsImport (trim isMargin l) ↔ StartsImport l := by
  obtain ⟨s, hcut, hmargin⟩ : ∃ s, s ++ trimStart isMargin l = l ∧ ∀ b ∈ s, isMargin b :=
    ⟨_, List.takeWhile_append_dropWhile, fun b hb => List.mem_takeWhile_imp hb⟩
  constructor
  · rintro ⟨m, hm, himport⟩
    refine ⟨s ++ m, ?_, himport.append_left fun b hb => Byte.isSpace_of_isMargin b (hmargin b hb)⟩
    rw [← hcut, List.prefix_append_right_inj]
    exact hm.trans (trimEnd_isPrefix _ _)
  · rintro ⟨m, hm, himport⟩
    rw [← hcut] at hm
    obtain ⟨m', hm', himport'⟩ := exists_isImport_of_append hmargin hm himport
    obtain ⟨w, rfl⟩ := exists_append_of_isImport himport'
    exact ⟨_, prefix_trimEnd hm' (by decide), himport'⟩

/-- Margins do not matter to a name constant within a line. -/
theorem holdsConstant_trim_iff {l : Text} : HoldsConstant (trim isMargin l) ↔ HoldsConstant l := by
  constructor
  · rintro ⟨m, hm, hconstant⟩
    exact ⟨m, (hm.trans (trimEnd_isPrefix _ _).isInfix).trans (List.dropWhile_suffix _).isInfix,
      hconstant⟩
  · rintro ⟨m, hm, hconstant⟩
    obtain ⟨t, ht⟩ := exists_cons_of_isNameConstant hconstant
    obtain ⟨u, hu⟩ := exists_append_of_isNameConstant hconstant
    exact ⟨m, Text.infix_trim hm ht (by rw [hu, List.getLast?_concat]) (by decide) (by decide),
      hconstant⟩

/-! ## Lines without a match -/

/-- No import is found at the head of a line exactly when the line starts with none. -/
theorem headEnd?_import?_eq_none_iff {l : Text} : headEnd? import? l = none ↔ ¬ StartsImport l := by
  rw [headEnd?, Option.map_eq_none_iff, Option.eq_none_iff_forall_ne_some]
  constructor
  · rintro h ⟨m, ⟨r, rfl⟩, himport⟩
    exact h r (import?_eq_some_iff.mpr ⟨m, rfl, himport⟩)
  · intro h r hr
    obtain ⟨m, rfl, himport⟩ := import?_eq_some_iff.mp hr
    exact h ⟨m, List.prefix_append _ _, himport⟩

/-- Nothing is found in a list of lines exactly when nothing is found in any of them. -/
theorem lastOfLines?_eq_none_iff {endOf? : Text → Option Nat} {l : List Text} :
    lastOfLines? endOf? l = none ↔ ∀ line ∈ l, endOf? line = none := by
  induction l with
  | nil => simp [lastOfLines?]
  | cons line l ih =>
    rw [lastOfLines?, Option.or_eq_none_iff, Option.map_eq_none_iff, ih, List.forall_mem_cons,
      and_comm]

/-- A pattern that matches nowhere in a line has no last match there. -/
theorem lastEnd?_eq_none {p : Pattern} {l : Text} (h : ∀ s, s <:+ l → p s = none) :
    lastEnd? p 0 l = none := by
  induction l with
  | nil => rfl
  | cons b l ih =>
    rw [lastEnd?, headEnd?, h _ (List.suffix_refl _), Option.map_none,
      ih fun s hs => h s (hs.trans (List.suffix_cons _ _))]
    rfl

/-- A match somewhere in a line makes a last one. -/
theorem lastEnd?_ne_none {p : Pattern} {s l rest : Text} {b : Byte} (hs : b :: s <:+ l)
    (h : p (b :: s) = some rest) : lastEnd? p 0 l ≠ none := by
  have hcons (x : Byte) (l : Text) : lastEnd? p 0 (x :: l) = none →
      p (x :: l) = none ∧ lastEnd? p 0 l = none := by
    intro hnone
    rw [lastEnd?, headEnd?] at hnone
    cases hx : p (x :: l) with
    | none => exact ⟨rfl, by simpa [hx] using hnone⟩
    | some r => simp [hx] at hnone
  induction l with
  | nil => simp at hs
  | cons x l ih =>
    intro hnone
    obtain ⟨hhead, hmore⟩ := hcons x l hnone
    rcases List.suffix_cons_iff.mp hs with heq | hs
    · rw [← heq, h] at hhead
      exact absurd hhead (by simp)
    · exact ih hs hmore

/-- No name constant is found in a line exactly when the line holds none. -/
theorem lastEnd?_nameConstant?_eq_none_iff {l : Text} :
    lastEnd? nameConstant? 0 l = none ↔ ¬ HoldsConstant l := by
  constructor
  · rintro h ⟨m, ⟨a, r, hl⟩, hconstant⟩
    obtain ⟨t, rfl⟩ := exists_cons_of_isNameConstant hconstant
    refine lastEnd?_ne_none (s := t ++ r) (b := byte 's') ⟨a, ?_⟩
      (nameConstant?_eq_some_iff.mpr ⟨_, rfl, hconstant⟩) h
    rw [← hl, List.append_assoc]
    rfl
  · refine fun h => lastEnd?_eq_none fun s hs => ?_
    rw [Option.eq_none_iff_forall_ne_some]
    intro r hr
    obtain ⟨m, rfl, hconstant⟩ := nameConstant?_eq_some_iff.mp hr
    exact h ⟨m, (List.prefix_append _ _).isInfix.trans hs.isInfix, hconstant⟩

/-- No import is found behind the first line exactly when no line there starts with one. -/
theorem importless_iff {t : Text} :
    lastOfLines? (headEnd? import?) (lines t).tail = none ↔ Importless t := by
  rw [lastOfLines?_eq_none_iff, Importless, bareLines, ← List.map_tail]
  simp only [headEnd?_import?_eq_none_iff, List.forall_mem_map, startsImport_trim_iff]

/-- No name constant is found behind the first line exactly when no line there holds one. -/
theorem constantless_iff {t : Text} :
    lastOfLines? (lastEnd? nameConstant? 0) (lines t).tail = none ↔ Constantless t := by
  rw [lastOfLines?_eq_none_iff, Constantless, bareLines, ← List.map_tail]
  simp only [lastEnd?_nameConstant?_eq_none_iff, List.forall_mem_map, holdsConstant_trim_iff]

/-! ## Last matches -/

/-- An import ends the imports of a text when no line behind it starts with another. -/
theorem importEnd?_eq_some_iff_bare {t : Text} {e : Nat} : importEnd? t = some e ↔
    ∃ a m r, t = a ++ (m ++ r) ∧ lastLine a = [] ∧ newline ∉ m ∧ IsImport m ∧
      e = (a ++ m).length ∧ Importless r := by
  simp only [importEnd?_eq_some_iff, importless_iff]

/-- What follows the last import may be replaced by a text without another. -/
theorem importEnd?_append_of_importless {a b c : Text} {e : Nat}
    (h : importEnd? (a ++ b) = some e) (he : e ≤ a.length)
    (hless : Importless (a.drop e ++ b) → Importless (a.drop e ++ c)) :
    importEnd? (a ++ c) = some e := by
  obtain ⟨a', m, r, hcut, ha', hnewline, hm, rfl, hr⟩ := importEnd?_eq_some_iff_bare.mp h
  obtain ⟨r', rfl⟩ : ∃ r', a = a' ++ m ++ r' := by
    refine ⟨a.drop (a' ++ m).length, ?_⟩
    rw [← List.append_assoc] at hcut
    conv_lhs => rw [← List.take_append_drop (a' ++ m).length a]
    rw [← (List.take_append_of_le_length he : (a ++ b).take _ = _), hcut, List.take_left]
  rw [List.append_assoc _ r', List.append_assoc, List.append_cancel_left_eq,
    List.append_cancel_left_eq] at hcut
  rw [List.drop_left, hcut] at hless
  refine importEnd?_eq_some_iff_bare.mpr ⟨a', m, r' ++ c, by simp, ha', hnewline, hm, rfl, hless hr⟩

/-- A line that does not start with a space or the first byte of the keyword starts no import. -/
theorem not_startsImport_of_cons {l t : Text} {b : Byte} (hl : l = b :: t)
    (hspace : isSpace b = false) (hb : b ≠ byte 'i') : ¬ StartsImport l := by
  rintro ⟨m, hm, s₁, s₂, path, more, rfl, hs₁, -⟩
  rw [hl] at hm
  cases s₁ with
  | nil => exact hb (List.cons_prefix_cons.mp hm).1.symm
  | cons c s₁ =>
    obtain ⟨rfl, -⟩ := List.cons_prefix_cons.mp hm
    rw [hs₁ c (List.mem_cons_self ..)] at hspace
    exact absurd hspace (by decide)

/-- Lines that start no import may be written where nothing but a margin follows. -/
theorem Importless.insert_block {r b nl indent : Text} {content : List Text}
    (h : Importless (r ++ b)) (hnl : Text.IsLineBreak nl) (hindent : ∀ x ∈ indent, isBlank x)
    (hb : ∀ x ∈ firstLine b, isMargin x) (hcontent : ∀ l ∈ content, newline ∉ l)
    (hlines : ∀ l ∈ content, ¬ StartsImport l) :
    Importless (r ++ (Text.block nl indent content ++ b)) := by
  rw [Importless, Text.bareLines_append_of_margin hb,
    List.tail_append_of_ne_nil (Text.bareLines_ne_nil r), List.forall_mem_append] at h
  rw [Importless, Text.bareLines_insert_of_margin hnl hindent hb r hcontent,
    List.tail_append_of_ne_nil (Text.bareLines_ne_nil r), List.forall_mem_append,
    List.forall_mem_append]
  refine ⟨h.1, ?_, h.2⟩
  simpa only [List.forall_mem_map, startsImport_trim_iff] using hlines

/-- A piece without a byte lies in front of every place of that byte. -/
private theorem exists_append_of_not_mem {c : Byte} {w x u v : Text} (hc : c ∉ w)
    (h : w ++ x = u ++ c :: v) : ∃ u', u = w ++ u' ∧ x = u' ++ c :: v := by
  rcases List.append_eq_append_iff.mp h with ⟨u', hu, hx⟩ | ⟨y, hw, hy⟩
  · exact ⟨u', hu, hx⟩
  · cases y with
    | nil => exact ⟨[], by rw [hw, List.append_nil, List.append_nil], hy.symm⟩
    | cons d y =>
      rw [← (List.cons.inj hy).1] at hw
      exact absurd (hw ▸ List.mem_append_right u (List.mem_cons_self ..)) hc

/-- A comma makes no import of a line, unless it stands alone between two quotes. -/
theorem StartsImport.of_comma {u v : Text} (h : StartsImport (u ++ byte ',' :: v))
    (hv : v.head? ≠ some quote) : StartsImport (u ++ v) := by
  obtain ⟨m, ⟨r, hr⟩, himport⟩ := h
  rcases List.append_eq_append_iff.mp hr with ⟨x, rfl, -⟩ | ⟨x, rfl, hx⟩
  · exact ⟨m, by simp, himport⟩
  cases x with
  | nil => exact ⟨u, List.prefix_append _ _, by simpa using himport⟩
  | cons d v' =>
    obtain ⟨rfl, rfl⟩ := List.cons.inj hx
    obtain ⟨s₁, s₂, path, more, himport, hs₁, hne, hs₂, hpath, hquote, hmore⟩ := himport
    have hspace {s : Text} (hs : ∀ b ∈ s, isSpace b) : byte ',' ∉ s := fun hmem =>
      absurd (hs _ hmem) (by decide)
    obtain ⟨u, rfl, hword⟩ := exists_append_of_not_mem (hspace hs₁) himport.symm
    obtain ⟨u, rfl, hspaces⟩ := exists_append_of_not_mem (w := lit "import") (by decide) hword
    obtain ⟨u, rfl, hquoted⟩ := exists_append_of_not_mem (hspace hs₂) hspaces
    obtain ⟨u, rfl, hrest⟩ := exists_append_of_not_mem (w := [quote]) (by decide) hquoted
    refine ⟨s₁ ++ (lit "import" ++ (s₂ ++ ([quote] ++ u))) ++ v', by simp, ?_⟩
    rcases List.append_eq_append_iff.mp hrest with ⟨u, rfl, hbehind⟩ | ⟨path', rfl, hwithin⟩
    · obtain ⟨u, rfl, hmore'⟩ := exists_append_of_not_mem (w := [quote]) (by decide) hbehind
      rcases List.append_eq_append_iff.mp hmore' with ⟨x, -, hend⟩ | ⟨more', rfl, hend⟩
      · have hmem : byte ',' ∈ [byte ';'] := hend ▸ List.mem_append_right x (List.mem_cons_self ..)
        exact absurd hmem (by decide)
      cases more' with
      | nil => exact absurd (List.cons.inj hend).1 (by decide)
      | cons d more' =>
        obtain ⟨rfl, rfl⟩ := List.cons.inj hend
        refine ⟨s₁, s₂, path, u ++ more', by simp, hs₁, hne, hs₂, hpath, hquote, ?_⟩
        simp only [List.mem_append, List.mem_cons, not_or] at hmore ⊢
        exact ⟨hmore.1, hmore.2.2⟩
    · cases path' with
      | nil => exact absurd (List.cons.inj hwithin).1 (by decide)
      | cons d path' =>
        obtain ⟨rfl, rfl⟩ := List.cons.inj hwithin
        simp only [List.mem_append, List.mem_cons, not_or] at hquote
        refine ⟨s₁, s₂, u ++ path', more, by simp, hs₁, hne, hs₂, fun hnil => hv ?_, ?_, hmore⟩
        · rw [(List.append_eq_nil_iff.mp hnil).2]
          rfl
        · exact fun hmem => (List.mem_append.mp hmem).elim hquote.1 hquote.2.2

theorem dropLast_bareLines_ne_nil {a : Text} (ha : newline ∈ a) :
    (bareLines a).dropLast ≠ [] := by
  rcases Text.exists_lastLine a with hnot | ⟨x, l, rfl, hl⟩
  · exact absurd ha hnot
  · rw [Text.bareLines_append_cons, Text.bareLines_of_not_mem hl, List.dropLast_concat]
    exact Text.bareLines_ne_nil x

/-- A comma makes no import, unless it stands alone between two quotes. -/
theorem Importless.insert_comma {a b : Text} (h : Importless (a ++ b)) (ha : newline ∈ a)
    (hb : b.head? ≠ some quote) : Importless (a ++ ([byte ','] ++ b)) := by
  have hne := dropLast_bareLines_ne_nil ha
  rw [Importless, Text.bareLines_append, List.tail_append_of_ne_nil hne, List.forall_mem_append,
    List.forall_mem_cons] at h
  rw [Importless, Text.bareLines_append_append (by decide), List.tail_append_of_ne_nil hne,
    List.forall_mem_append, List.forall_mem_cons]
  refine ⟨h.1, fun himport => h.2.1 ?_, h.2.2⟩
  rw [startsImport_trim_iff] at himport ⊢
  refine himport.of_comma fun hhead => hb ?_
  obtain ⟨r, hcut, -⟩ := Text.exists_append_firstLine b
  have hfirst : (firstLine b).head? = some quote := hhead
  rw [hcut, List.head?_append, hfirst]
  rfl

/-- A line break makes an import only of the line behind it. -/
theorem Importless.insert_lineBreak {a b nl indent : Text} (h : Importless (a ++ b))
    (ha : newline ∈ a) (hnl : Text.IsLineBreak nl) (hindent : ∀ x ∈ indent, isBlank x)
    (hb : ¬ StartsImport (firstLine b)) : Importless (a ++ (nl ++ (indent ++ b))) := by
  have hne := dropLast_bareLines_ne_nil ha
  rw [Importless, Text.bareLines_append, List.tail_append_of_ne_nil hne, List.forall_mem_append,
    List.forall_mem_cons] at h
  rw [Importless, Text.bareLines_insert_lineBreak hnl hindent, Text.bareLines_eq_dropLast_append a,
    Text.bareLines_eq_cons_tail b, List.append_assoc, List.tail_append_of_ne_nil hne,
    List.forall_mem_append, List.forall_mem_append, List.forall_mem_singleton, List.forall_mem_cons]
  refine ⟨h.1, fun himport => h.2.1 ?_, ?_, h.2.2⟩
  · rw [startsImport_trim_iff] at himport ⊢
    exact himport.append _
  · rwa [startsImport_trim_iff]

/-- The last match of a line ends where blanks, a match and blanks make up the line. Behind the
match nothing starts a constant: the bytes of the match are skipped, and the margin holds none. -/
private theorem lastEnd?_nameConstant?_append {indent m margin : Text}
    (hindent : ∀ b ∈ indent, isMargin b) (hm : IsNameConstant m)
    (hmargin : ∀ b ∈ margin, isMargin b) :
    lastEnd? nameConstant? 0 (indent ++ (m ++ margin)) = some (indent ++ m).length := by
  have hskip (x : Text) : lastEnd? nameConstant? x.length (x ++ margin) = none := by
    induction x with
    | nil =>
      refine lastEnd?_nameConstant?_eq_none_iff.mpr ?_
      rintro ⟨m, hin, hconstant⟩
      obtain ⟨t, rfl⟩ := exists_cons_of_isNameConstant hconstant
      exact absurd (hmargin _ (hin.subset (List.mem_cons_self ..))) (by decide)
    | cons b x ih => simp [lastEnd?, ih]
  induction indent with
  | nil =>
    obtain ⟨t, rfl⟩ := exists_cons_of_isNameConstant hm
    have hhead : headEnd? nameConstant? (byte 's' :: (t ++ margin)) = some (t.length + 1) := by
      have hmatch : nameConstant? (byte 's' :: (t ++ margin)) = some margin :=
        nameConstant?_eq_some_iff.mpr ⟨byte 's' :: t, rfl, hm⟩
      rw [headEnd?, hmatch, Option.map_some, Option.some.injEq, List.length_cons,
        List.length_append]
      omega
    rw [List.nil_append, List.cons_append, lastEnd?, hhead]
    simp [hskip]
  | cons b indent ih =>
    obtain ⟨hb, hindent⟩ := List.forall_mem_cons.mp hindent
    have hnone : headEnd? nameConstant? (b :: (indent ++ (m ++ margin))) = none := by
      rw [headEnd?, Option.map_eq_none_iff, Option.eq_none_iff_forall_ne_some]
      intro r hr
      obtain ⟨m', heq, hconstant⟩ := nameConstant?_eq_some_iff.mp hr
      obtain ⟨t, rfl⟩ := exists_cons_of_isNameConstant hconstant
      rw [(List.cons.inj heq).1] at hb
      exact absurd hb (by decide)
    rw [List.cons_append, lastEnd?, hnone]
    simp [ih hindent]

/-- A name constant on a line of its own ends the name constants of a text when no line behind it
holds another. -/
theorem nameConstantEnd?_eq_some {a m r : Text} (ha : ∀ b ∈ lastLine a, isMargin b)
    (hnewline : newline ∉ m) (hm : IsNameConstant m) (hr : ∀ b ∈ firstLine r, isMargin b)
    (hlater : Constantless r) : nameConstantEnd? (a ++ (m ++ r)) = some (a ++ m).length := by
  obtain ⟨b, indent, rfl, hb, hindent⟩ : ∃ b indent, a = b ++ indent ∧ lastLine b = [] ∧
      lastLine a = indent := by
    rcases Text.exists_lastLine a with hnot | ⟨b, l, rfl, hl⟩
    · exact ⟨[], a, rfl, rfl, Text.lastLine_of_not_mem hnot⟩
    · refine ⟨b ++ [newline], l, by simp, ?_, Text.lastLine_append_cons hl⟩
      rw [Text.lastLine_append_cons (by simp)]
  rw [hindent] at ha
  have hnot : newline ∉ indent := Text.newline_not_mem_of_isMargin ha
  rw [List.append_assoc, List.append_assoc b indent m, List.length_append,
    ← List.append_assoc indent]
  refine lastOfLines?_append_of_lastLine _ hb ?_
  rw [lastOfLines?_append_of_tail _ (List.not_mem_append hnot hnewline)
    (constantless_iff.mpr hlater), List.append_assoc]
  exact lastEnd?_nameConstant?_append ha hm hr

/-- No line behind the last name constant of a text holds another. -/
theorem exists_constantless_of_nameConstantEnd? {t : Text} {c : Nat}
    (h : nameConstantEnd? t = some c) :
    ∃ a m r, t = a ++ (m ++ r) ∧ newline ∉ m ∧ IsNameConstant m ∧ c = (a ++ m).length ∧
      Constantless r := by
  simpa only [constantless_iff] using exists_of_nameConstantEnd? h

end FlutterScaffold.Registry
