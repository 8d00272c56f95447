import FlutterScaffold.Proofs.Registry.Independence
import FlutterScaffold.Proofs.Text.Search
import FlutterScaffold.Registry.Merge

/-!
# Which declarations are recognized once they are written

A declaration is looked for by whole lines, but it is written behind the last byte of an anchor,
and whatever followed the anchor on its line then follows the declaration. So an import or a pair of
constants is recognized exactly when only blanks follow its anchor or the line of the anchor spells
the same declaration, and an entry always is, as it ends its line itself.
-/

namespace FlutterScaffold

open FlutterScaffold.Text (trim lastLine firstLine block bareLines IsLineBreak)
open Byte (newline isMargin isBlank)

namespace Text

/-- A text that starts and ends with bytes outside the class is trimmed to itself when bytes of the
class follow, and to something longer when another byte follows. -/
theorem trim_append_cases {p : Byte → Bool} {x c : Byte} {t u : Text} (ht : t = x :: u)
    (hc : t.getLast? = some c) (hx : p x = false) (hpc : p c = false) (f : Text) :
    ((∀ b ∈ f, p b) ∧ trim p (t ++ f) = t) ∨ ∃ g, g ≠ [] ∧ trim p (t ++ f) = t ++ g := by
  induction hlen : f.length generalizing f with
  | zero =>
    obtain rfl := List.length_eq_zero_iff.mp hlen
    exact Or.inl ⟨by simp, by rw [List.append_nil, trim_eq_self ht hc hx hpc]⟩
  | succ n ih =>
    obtain ⟨g, d, rfl⟩ : ∃ g d, f = g ++ [d] := by
      have hne : f ≠ [] := List.ne_nil_of_length_eq_add_one hlen
      exact ⟨f.dropLast, f.getLast hne, (List.dropLast_concat_getLast hne).symm⟩
    by_cases hd : p d = true
    · have hall : ∀ b ∈ [d], p b := by simpa using hd
      rw [← List.append_assoc, trim_append_right hall]
      rcases ih g (by simpa using hlen) with ⟨hg, heq⟩ | hlonger
      · exact Or.inl ⟨List.forall_mem_append.mpr ⟨hg, hall⟩, heq⟩
      · exact Or.inr hlonger
    · rw [Bool.not_eq_true] at hd
      refine Or.inr ⟨g ++ [d], by simp, ?_⟩
      have hstart : t ++ (g ++ [d]) = x :: (u ++ (g ++ [d])) := by rw [ht, List.cons_append]
      exact trim_eq_self hstart (by rw [← List.append_assoc, List.getLast?_concat]) hx hd

/-- What starts and ends with bytes outside the class survives a trim. -/
theorem infix_trim {p : Byte → Bool} {w t u : Text} {x c : Byte} (h : w <:+: t) (hw : w = x :: u)
    (hc : w.getLast? = some c) (hx : p x = false) (hpc : p c = false) : w <:+: trim p t := by
  have hdrop {v s : Text} {y : Byte} (hv : v.head? = some y) (hy : p y = false) (h : v <:+: s) :
      v <:+: s.dropWhile p := by
    obtain ⟨l, r, rfl⟩ := h
    have hself (z : Text) : (v ++ z).dropWhile p = v ++ z := by
      cases v with
      | nil => simp at hv
      | cons d v =>
        obtain rfl := Option.some.inj hv
        simp [hy]
    rw [List.append_assoc, List.dropWhile_append]
    split
    · rw [hself]
      exact (List.prefix_append _ _).isInfix
    · exact ⟨l.dropWhile p, r, by simp⟩
  have hstart : w <:+: trimStart p t := hdrop (by rw [hw]; rfl) hx h
  have hrev : w.reverse <:+: (trimStart p t).reverse := List.reverse_infix.mpr hstart
  have hend := hdrop (by rwa [List.head?_reverse]) hpc hrev
  rwa [← List.reverse_infix, List.reverse_reverse] at hend

/-- A pair whose first element is put between two lists stands there with its second element behind
it, or ends in front of it. -/
theorem pair_infix_insert_iff {α : Type} {p q x y : α} {l m : List α} (hl : ¬ [p, q] <:+: l)
    (hm : ¬ [p, q] <:+: m) (hpq : q ≠ p) (hy : y ≠ p) :
    [p, q] <:+: l ++ ([x, p, y] ++ m) ↔ y = q ∨ [p, q] <:+ l ++ [x] := by
  have hcut : l ++ ([x, p, y] ++ m) = (l ++ [x]) ++ (p :: (y :: m)) := by simp
  have hseam : ¬ ((l ++ [x]).getLast? = some p ∧ (p :: (y :: m)).head? = some q) := by
    rintro ⟨-, hhead⟩
    exact hpq (Option.some.inj hhead).symm
  have hbehind : [p, q] <:+: p :: (y :: m) ↔ y = q := by
    rw [List.infix_cons_iff, List.infix_cons_iff]
    constructor
    · rintro (h | h | h)
      · exact (by simpa [List.cons_prefix_cons] using h : q = y).symm
      · exact absurd (by simpa [List.cons_prefix_cons] using h : p = y ∧ _).1.symm hy
      · exact absurd h hm
    · rintro rfl
      exact Or.inl (by simp [List.cons_prefix_cons])
  rw [hcut, pair_infix_append_iff, hbehind, List.infix_concat_iff]
  tauto

end Text

namespace Registry

/-! ## Imports -/

/-- The line of an import starts with a letter and ends with a semicolon. -/
theorem importLine_ends {route : Route} {line : Text} (hline : importLines route = [line]) :
    (∃ t, line = byte 'i' :: t) ∧ line.getLast? = some (byte ';') := by
  obtain ⟨t, ht, -⟩ := exists_importLine route
  obtain ⟨u, hu⟩ := exists_append_importLine route
  refine ⟨⟨t, List.singleton_inj.mp (hline.symm.trans ht)⟩, ?_⟩
  rw [List.singleton_inj.mp (hline.symm.trans hu), List.getLast?_concat]

/-- The line of an import is trimmed to itself, whatever blanks follow it. -/
theorem trim_importLine_append {route : Route} {line : Text} (hline : importLines route = [line])
    (f : Text) : ((∀ b ∈ f, isMargin b) ∧ trim isMargin (line ++ f) = line) ∨
      ∃ g, g ≠ [] ∧ trim isMargin (line ++ f) = line ++ g := by
  obtain ⟨⟨t, heq⟩, hlast⟩ := importLine_ends hline
  exact Text.trim_append_cases heq hlast (by decide) (by decide) f

/-- The line of an import has no margin. -/
theorem trim_importLine {route : Route} {line : Text} (hline : importLines route = [line]) :
    trim isMargin line = line := by
  obtain ⟨⟨t, heq⟩, hlast⟩ := importLine_ends hline
  exact Text.trim_eq_self heq hlast (by decide) (by decide)

/-- An import is declared exactly when its line is one of the document's. -/
theorem declares_importLines_iff {doc line : Text} {route : Route}
    (hline : importLines route = [line]) :
    declares doc (importLines route) = true ↔ line ∈ bareLines doc := by
  rw [declares_iff, hline, wanted, List.map_cons, List.map_nil, trim_importLine hline,
    List.singleton_infix_iff]

section Insert

variable {nl indent : Text} (hnl : IsLineBreak nl) (hindent : ∀ x ∈ indent, isBlank x)

include hnl hindent

/-- An import that is written into a document without it is recognized exactly when only blanks
follow it on its line, or when the line in front of it spells the same import. -/
theorem declares_importLines_insert_iff {a b line : Text} {route : Route}
    (hline : importLines route = [line]) (hpath : newline ∉ route.importPath)
    (hnot : declares (a ++ b) (importLines route) = false) :
    declares (a ++ (block nl indent (importLines route) ++ b)) (importLines route) = true ↔
      (∀ x ∈ firstLine b, isMargin x) ∨ trim isMargin (lastLine a) = line := by
  have hnewline := newline_not_mem_importLines hpath
  rw [hline, List.forall_mem_singleton] at hnewline
  rw [← Bool.not_eq_true, declares_importLines_iff hline, Text.bareLines_append] at hnot
  simp only [List.mem_append, List.mem_cons, not_or] at hnot
  obtain ⟨hbefore, -, hbehind⟩ := hnot
  have hnew := Text.bareLines_insert_block hnl hindent a b line []
    (by simp) hnewline
  rw [List.nil_append] at hnew
  rw [declares_importLines_iff hline, hline, hnew]
  simp only [List.map_nil, List.cons_append, List.nil_append, List.mem_append,
    List.mem_cons, hbefore, hbehind, false_or, or_false]
  rw [or_comm]
  refine or_congr ⟨fun h => ?_, fun h => ?_⟩ eq_comm
  · rcases trim_importLine_append hline (firstLine b) with ⟨hall, -⟩ | ⟨g, hg, heq⟩
    · exact hall
    · rw [heq] at h
      exact absurd h.symm (by simpa using hg)
  · rw [Text.trim_append_right h, trim_importLine hline]

end Insert

/-! ## Constants -/

/-- The line of a constant starts with a letter and ends with a semicolon, so it is trimmed to
itself. -/
theorem trim_constantLine_append (name value f : Text) :
    ((∀ b ∈ f, isMargin b) ∧
      trim isMargin (constantLine name value ++ f) = constantLine name value) ∨
    ∃ g, g ≠ [] ∧ trim isMargin (constantLine name value ++ f) = constantLine name value ++ g := by
  obtain ⟨t, ht⟩ := constantLine_eq name value
  have hlast : (constantLine name value).getLast? = some (byte ';') := by
    rw [ht, ← List.cons_append, List.getLast?_concat]
  exact Text.trim_append_cases ht hlast (by decide) (by decide) f

theorem trim_constantLine (name value : Text) :
    trim isMargin (constantLine name value) = constantLine name value := by
  obtain ⟨t, ht⟩ := constantLine_eq name value
  have hlast : (constantLine name value).getLast? = some (byte ';') := by
    rw [ht, ← List.cons_append, List.getLast?_concat]
  exact Text.trim_eq_self ht hlast (by decide) (by decide)

/-- The constants are looked for as they are written. -/
theorem wanted_constantLines (route : Route) :
    wanted (constantLines route) = constantLines route := by
  simp [wanted, constantLines, trim_constantLine]

/-- The name constant of a route does not start with its path constant or the other way round. -/
theorem constantLine_ne_append (symbol path name g : Text) :
    constantLine (symbol ++ lit "Name") name ++ g ≠ constantLine symbol path := by
  intro h
  have hword : lit "Name" ++ (lit " = " ++ Dart.stringLiteral name ++ lit ";" ++ g) =
      lit " = " ++ Dart.stringLiteral path ++ lit ";" := by
    have hcut := congrArg (List.drop (lit "static const String " ++ symbol).length) h
    simpa only [constantLine, List.append_assoc, List.drop_append_of_le_length,
      List.drop_left, List.length_append, List.drop_length_add_append] using hcut
  have hhead : some (byte 'N') = some (byte ' ') := congrArg List.head? hword
  exact absurd hhead (by decide)

section InsertConstants

variable {nl indent : Text} (hnl : IsLineBreak nl) (hindent : ∀ x ∈ indent, isBlank x)

include hnl hindent

/-- A pair of constants that is written into a document without it is recognized exactly when only
blanks follow it on its line, or when the two lines in front of it spell the same pair. The pair is
on none of the old lines, so it is found only across the insertion. -/
theorem declares_constantLines_insert_iff {a b : Text} {route : Route} (hr : route.Regular)
    (hnot : declares (a ++ b) (constantLines route) = false) :
    declares (a ++ (block nl indent (constantLines route) ++ b)) (constantLines route) = true ↔
      (∀ x ∈ firstLine b, isMargin x) ∨ constantLines route <:+ bareLines a := by
  have hlines : constantLines route = [constantLine route.symbol route.path] ++
      [constantLine (route.symbol ++ lit "Name") route.name] := rfl
  have hnewline := newline_not_mem_constantLines hr
  rw [hlines, List.forall_mem_append, List.forall_mem_singleton, List.forall_mem_singleton]
    at hnewline
  have hne := constantLine_ne_append route.symbol route.path route.name
  have hlast := trim_constantLine_append (route.symbol ++ lit "Name") route.name (firstLine b)
  have hself := trim_constantLine (route.symbol ++ lit "Name") route.name
  rw [← Bool.not_eq_true, declares_iff, wanted_constantLines, Text.bareLines_append] at hnot
  have hbefore : ¬ constantLines route <:+: (Text.bareLines a).dropLast := fun h =>
    hnot (h.trans (List.prefix_append _ _).isInfix)
  have hbehind : ¬ constantLines route <:+: (Text.bareLines b).tail := fun h =>
    hnot (h.trans ((List.suffix_cons _ _).trans (List.suffix_append _ _)).isInfix)
  have hpair := Text.pair_infix_insert_iff hbefore hbehind
    (fun h => hne [] (by rw [List.append_nil, h])) (x := trim isMargin (lastLine a))
    (y := trim isMargin (constantLine (route.symbol ++ lit "Name") route.name ++ firstLine b)) ?_
  · rw [declares_iff, wanted_constantLines, hlines,
      Text.bareLines_insert_block hnl hindent a b _ _ (by simpa using hnewline.1) hnewline.2,
      Text.bareLines_eq_dropLast_append a]
    refine Iff.trans ?_ (hpair.trans (or_congr_left ⟨fun h => ?_, fun h => ?_⟩))
    · simp [trim_constantLine]
    · rcases hlast with ⟨hall, -⟩ | ⟨g, hg, heq⟩
      · exact hall
      · rw [heq] at h
        exact absurd h (by simpa using hg)
    · rw [Text.trim_append_right h, hself]
  · rcases hlast with ⟨-, heq⟩ | ⟨g, -, heq⟩
    · rw [heq]
      exact fun h => hne [] (by rw [List.append_nil, h])
    · rw [heq]
      exact hne g

/-- A declaration that is written with nothing but blanks behind it is recognized. -/
theorem declares_insert_of_margin {a b last : Text} {init : List Text}
    (hinit : ∀ l ∈ init, newline ∉ l) (hlast : newline ∉ last)
    (hb : ∀ x ∈ firstLine b, isMargin x) :
    declares (a ++ (block nl indent (init ++ [last]) ++ b)) (init ++ [last]) = true := by
  rw [declares_iff, Text.bareLines_insert_block hnl hindent a b last init hinit hlast,
    Text.trim_append_right hb]
  refine ⟨(bareLines a).dropLast ++ [trim isMargin (lastLine a)], (bareLines b).tail, ?_⟩
  simp [wanted]

end InsertConstants

/-! ## Name constants and imports -/

/-- A name constant starts with `s`. -/
theorem exists_cons_of_isNameConstant {m : Text} (h : IsNameConstant m) :
    ∃ t, m = byte 's' :: t := by
  obtain ⟨s₁, s₂, s₃, s₄, s₅, s₆, word, value, rfl, -⟩ := h
  exact ⟨_, rfl⟩

private theorem exists_cons_of_ne {b c : Byte} {t y z : Text} (hb : b ≠ c)
    (h : b :: t = y ++ c :: z) : ∃ u, y = b :: u ∧ t = u ++ c :: z := by
  rcases List.cons_eq_append_iff.mp h with ⟨-, hz⟩ | hy
  · exact absurd (List.cons.inj hz).1.symm hb
  · exact hy

/-- A quote in a literal that another quote follows stands behind a backslash. -/
theorem exists_backslash_of_escape {value y z : Text}
    (h : Dart.escape value ++ [Byte.quote, byte ';'] = y ++ Byte.quote :: z)
    (hz : Byte.quote ∈ z) : ∃ u, y = u ++ [Byte.backslash] := by
  induction value generalizing y with
  | nil =>
    rcases List.cons_eq_append_iff.mp h with ⟨-, hz'⟩ | ⟨u, -, hu⟩
    · rw [(List.cons.inj hz').2] at hz
      exact absurd hz (by decide)
    · have hmem : Byte.quote ∈ [byte ';'] := by
        rw [hu]
        simp
      exact absurd hmem (by decide)
  | cons b value ih =>
    have hcons : Dart.escape (b :: value) =
        (if Dart.needsEscape b then [Byte.backslash, b] else [b]) ++ Dart.escape value := rfl
    rw [hcons, List.append_assoc] at h
    cases hb : Dart.needsEscape b with
    | true =>
      rw [hb, if_pos rfl] at h
      obtain ⟨u, rfl, hu⟩ := exists_cons_of_ne (by decide) h
      rcases List.cons_eq_append_iff.mp hu with ⟨rfl, -⟩ | ⟨v, rfl, hv⟩
      · exact ⟨[], rfl⟩
      · obtain ⟨u, rfl⟩ := ih hv
        exact ⟨Byte.backslash :: b :: u, rfl⟩
    | false =>
      have hne : b ≠ Byte.quote := by
        rintro rfl
        exact absurd hb (by decide)
      rw [hb, if_neg (by decide)] at h
      obtain ⟨v, rfl, hv⟩ := exists_cons_of_ne hne h
      obtain ⟨u, rfl⟩ := ih hv
      exact ⟨b :: u, rfl⟩

/-- No import line holds a name constant. The quote behind the equals sign is not the one that opens
the literal, and none within the literal stands behind an equals sign and spaces. -/
theorem not_infix_importLine_of_isNameConstant {m line : Text} {route : Route}
    (hm : IsNameConstant m) (hline : importLines route = [line]) : ¬ m <:+: line := by
  have hheq : line = lit "import " ++ Byte.quote ::
      (Dart.escape route.importPath ++ [Byte.quote, byte ';']) := by
    refine List.singleton_inj.mp (hline.symm.trans ?_)
    simp [importLines, Dart.stringLiteral, lit]
    rfl
  obtain ⟨u, s, z, rfl, hs, hz⟩ : ∃ u s z, m = u ++ (byte '=' :: s ++ Byte.quote :: z) ∧
      (∀ b ∈ s, Byte.isSpace b) ∧ Byte.quote ∈ z := by
    obtain ⟨s₁, s₂, s₃, s₄, s₅, s₆, word, value, rfl, -, hs, -, -, -⟩ := hm
    exact ⟨lit "static" ++ (s₁ ++ (lit "const" ++ (s₂ ++ (lit "String" ++ (s₃ ++ (word ++ s₄)))))),
      s₅, value ++ Byte.quote :: (s₆ ++ [byte ';']), by simp [lit]; rfl, hs s₅ (by simp), by simp⟩
  rintro ⟨x, w, hx⟩
  have hcut : lit "import " ++ Byte.quote ::
      (Dart.escape route.importPath ++ [Byte.quote, byte ';']) =
        (x ++ u ++ byte '=' :: s) ++ Byte.quote :: (z ++ w) := by
    rw [← hheq, ← hx]
    simp
  rcases List.append_eq_append_iff.mp hcut with ⟨v, hv, hrest⟩ | ⟨v, hv, -⟩
  · rcases List.cons_eq_append_iff.mp hrest with ⟨rfl, -⟩ | ⟨y, rfl, hy⟩
    · have hmem : byte '=' ∈ lit "import " ++ [] := by
        rw [← hv]
        simp
      exact absurd hmem (by decide)
    · obtain ⟨t, rfl⟩ := exists_backslash_of_escape hy (List.mem_append_left _ hz)
      have hlast : (byte '=' :: s).getLast? = some Byte.backslash := by
        have hwhole := congrArg List.getLast? hv
        rw [List.getLast?_append_of_ne_nil _ (by simp)] at hwhole
        rw [hwhole, ← List.cons_append, ← List.append_assoc, List.getLast?_concat]
      rcases List.mem_cons.mp (List.mem_of_getLast? hlast) with heq | hmem
      · exact absurd heq (by decide)
      · exact absurd (hs _ hmem) (by decide)
  · have hmem : byte '=' ∈ lit "import " := by
      rw [hv]
      simp
    exact absurd hmem (by decide)

/-- A name constant holds two quotes at least. -/
theorem two_le_count_of_isNameConstant {m : Text} (h : IsNameConstant m) :
    2 ≤ m.count Byte.quote := by
  obtain ⟨s₁, s₂, s₃, s₄, s₅, s₆, word, value, rfl, -⟩ := h
  simp only [List.count_append, List.count_cons_self]
  omega

/-- In front of its last byte an import has no semicolon but within the quotes of its path. -/
theorem count_le_one_of_isImport {m₁ m₂ : Text} (h : IsImport (m₁ ++ m₂)) (hne : m₂ ≠ [])
    (hlast : m₁.getLast? = some (byte ';')) : m₁.count Byte.quote ≤ 1 := by
  obtain ⟨s₁, s₂, path, more, heq, hs₁, -, hs₂, -, hpath, hmore⟩ := h
  have hspace {s : Text} (hs : ∀ b ∈ s, Byte.isSpace b) : s.count Byte.quote = 0 :=
    List.count_eq_zero.mpr fun hmem => absurd (hs _ hmem) (by decide)
  have hword : (lit "import").count Byte.quote = 0 := by decide
  have hcount : (s₁ ++ (lit "import" ++ (s₂ ++ Byte.quote :: path))).count Byte.quote = 1 := by
    simp only [List.count_append, List.count_cons_self, hspace hs₁, hspace hs₂, hword,
      List.count_eq_zero.mpr hpath]
  have hcut : m₁ ++ m₂ = (s₁ ++ (lit "import" ++ (s₂ ++ Byte.quote :: path))) ++
      Byte.quote :: (more ++ [byte ';']) := by
    rw [heq]
    simp only [List.append_assoc, List.cons_append]
  rcases List.append_eq_append_iff.mp hcut with ⟨v, hv, -⟩ | ⟨v, rfl, hv⟩
  · rw [← hcount, hv, List.count_append]
    exact Nat.le_add_right _ _
  · rcases List.cons_eq_append_iff.mp hv with ⟨rfl, -⟩ | ⟨w, rfl, hw⟩
    · rw [List.append_nil, hcount]
    · exfalso
      rw [List.getLast?_append_of_ne_nil _ (by simp)] at hlast
      have hmem : byte ';' ∈ w := by
        rcases List.mem_cons.mp (List.mem_of_getLast? hlast) with heq | hmem
        · exact absurd heq (by decide)
        · exact hmem
      obtain ⟨u, rfl⟩ : ∃ u, m₂ = u ++ [byte ';'] := by
        have hend := congrArg List.getLast? hw
        rw [List.getLast?_concat, List.getLast?_append_of_ne_nil _ hne] at hend
        exact List.getLast?_eq_some_iff.mp hend.symm
      rw [← List.append_assoc, List.append_left_inj] at hw
      exact hmore (hw ▸ List.mem_append_left _ hmem)

/-- What holds no line break and ends behind the start of a line stands on that line. -/
private theorem exists_append_of_lastLine_eq_nil {a x m m₁ : Text} (h : x ++ m = a ++ m₁)
    (ha : lastLine a = []) (hm : newline ∉ m) : ∃ w, m₁ = w ++ m := by
  rcases List.append_eq_append_iff.mp h with ⟨v, hv, hm₁⟩ | ⟨v, -, hm₁⟩
  · cases v with
    | nil => exact ⟨[], by rw [hm₁]; rfl⟩
    | cons c v =>
      exfalso
      rcases Text.eq_nil_or_of_lastLine_eq_nil ha with hnil | ⟨u, hu⟩
      · rw [hnil] at hv
        simp at hv
      · have hlast := congrArg List.getLast? (hu.symm.trans hv)
        rw [List.getLast?_concat, List.getLast?_append_of_ne_nil _ (by simp)] at hlast
        refine hm ?_
        rw [hm₁]
        exact List.mem_append_left _ (List.mem_of_getLast? hlast.symm)
  · exact ⟨v, hm₁⟩

/-- A name constant ends in front of an import, at its end or behind it. Otherwise it would lie
in the import in front of its last byte, where there is one quote at most. -/
theorem length_le_or_of_isNameConstant {a m b x m' y : Text} (h : a ++ m ++ b = x ++ m' ++ y)
    (ha : lastLine a = []) (hm : IsImport m) (hm' : IsNameConstant m') (hnewline : newline ∉ m') :
    (x ++ m').length < a.length ∨ (a ++ m).length ≤ (x ++ m').length := by
  by_contra hcon
  simp only [not_or, not_lt, not_le] at hcon
  obtain ⟨m₁, hx⟩ : ∃ m₁, x ++ m' = a ++ m₁ := by
    rw [List.append_assoc] at h
    rcases List.append_eq_append_iff.mp h with ⟨v, hv, -⟩ | ⟨v, hv, -⟩
    · exact ⟨v, hv⟩
    · have hlen := congrArg List.length hv
      have hnil : v = [] := List.length_eq_zero_iff.mp (by
        rw [List.length_append] at hlen
        omega)
      exact ⟨[], by rw [hv, hnil, List.append_nil, List.append_nil]⟩
  rw [hx] at hcon h
  rw [List.append_assoc, List.append_assoc, List.append_cancel_left_eq] at h
  simp only [List.length_append, Nat.add_lt_add_iff_left] at hcon
  obtain ⟨m₂, rfl, hne⟩ : ∃ m₂, m = m₁ ++ m₂ ∧ m₂ ≠ [] := by
    rcases List.append_eq_append_iff.mp h with ⟨v, hv, -⟩ | ⟨v, hv, -⟩
    · have hlen := congrArg List.length hv
      rw [List.length_append] at hlen
      omega
    · refine ⟨v, hv, ?_⟩
      rintro rfl
      rw [hv, List.append_nil] at hcon
      omega
  obtain ⟨m'', hend⟩ := exists_append_of_isNameConstant hm'
  obtain ⟨w, hw⟩ := exists_append_of_lastLine_eq_nil hx ha hnewline
  have hlast : m₁.getLast? = some (byte ';') := by
    rw [hw, hend, ← List.append_assoc, List.getLast?_concat]
  have hle := count_le_one_of_isImport hm hne hlast
  have htwo := two_le_count_of_isNameConstant hm'
  rw [hw, List.count_append] at hle
  omega

/-- Constants written behind a name constant make no import appear or vanish. The line of the anchor
holds a name constant and the new lines start as constants do, so no import is on one of them. -/
theorem declares_importLines_insert {nl indent : Text} (hnl : IsLineBreak nl)
    (hindent : ∀ x ∈ indent, isBlank x) {m : Text} {route other : Route} (a b : Text)
    (hr : route.Regular) (hnewline : newline ∉ m) (hm : IsNameConstant m) :
    declares (a ++ m ++ (block nl indent (constantLines route) ++ b)) (importLines other) =
      declares (a ++ m ++ b) (importLines other) := by
  obtain ⟨t, ht, -⟩ := exists_importLine other
  have htrim := trim_importLine ht
  have hwanted : wanted (importLines other) = [byte 'i' :: t] := by
    rw [ht, wanted, List.map_cons, List.map_nil, htrim]
  obtain ⟨m', hlast⟩ := exists_append_of_isNameConstant hm
  obtain ⟨m'', hfirst⟩ := exists_cons_of_isNameConstant hm
  have hold (f : Text) : trim isMargin (lastLine (a ++ m) ++ f) ∉ wanted (importLines other) := by
    rw [hwanted, List.mem_singleton]
    intro heq
    have hin : m <:+: lastLine (a ++ m) ++ f := by
      rw [Text.lastLine_append hnewline]
      exact ⟨lastLine a, f, rfl⟩
    have hsemi : m.getLast? = some (byte ';') := by rw [hlast, List.getLast?_concat]
    have hin := Text.infix_trim (p := isMargin) hin hfirst hsemi (by decide) (by decide)
    exact not_infix_importLine_of_isNameConstant hm ht (heq ▸ hin)
  have hconstant (name value f : Text) :
      trim isMargin (constantLine name value ++ f) ∉ wanted (importLines other) := by
    rw [hwanted, List.mem_singleton]
    obtain ⟨u, hu⟩ := constantLine_eq name value
    intro heq
    rcases trim_constantLine_append name value f with ⟨-, h⟩ | ⟨g, -, h⟩
    · rw [h, hu] at heq
      exact absurd (List.cons.inj heq).1 (by decide)
    · rw [h, hu] at heq
      exact absurd (List.cons.inj heq).1 (by decide)
  have hlines := newline_not_mem_constantLines hr
  refine declares_insert_block hnl hindent [constantLine route.symbol route.path]
    (fun l hl => hlines l (by simp_all [constantLines])) (hlines _ (by simp [constantLines]))
    (by simp [importLines]) (hold _) ?_ ?_ (hconstant _ _ _)
  · have h := hold []
    rwa [List.append_nil] at h
  · rw [List.forall_mem_singleton, ← List.append_nil (constantLine _ _)]
    exact hconstant _ _ _

end Registry

end FlutterScaffold
