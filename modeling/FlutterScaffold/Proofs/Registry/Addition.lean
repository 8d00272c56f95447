import FlutterScaffold.Proofs.Text.Breaks
import FlutterScaffold.Proofs.Registry.Placement

/-!
# Statements added to a registry

Imports and constants are written behind the semicolon of an earlier statement and end with one
themselves. Such an addition holds no bracket, uses the line break of the document and is indented
like the line above it, so the places behind it only move: signatures, tokens, matching brackets,
the last byte of code and the indentations are found where they were, as far further on as the
addition is long. The merges that look behind the addition therefore decide as they did before.
-/

namespace FlutterScaffold.Registry

open FlutterScaffold.Text (lastLine lineIndent lineBreak crlf block indexOf?)
open Byte (newline isBlank isLayout)

/-- The same decision about a document that starts `n` bytes later. -/
def Step.ahead (n : Nat) : Step → Step
  | .insert first more => .insert (first.ahead n) (more.map (Insertion.ahead n))
  | .keep => .keep
  | .refuse => .refuse

@[simp] theorem Step.status_ahead (n : Nat) (step : Step) :
    (step.ahead n).status = step.status := by
  cases step <;> rfl

@[simp] theorem Step.insertions_ahead (n : Nat) (step : Step) :
    (step.ahead n).insertions = step.insertions.map (Insertion.ahead n) := by
  cases step <;> rfl

/-- Statements `i` written behind the semicolon that ends `a`, in front of `b`. -/
structure Addition (a i b : Text) : Prop where
  behind : ∃ a', a = a' ++ [byte ';']
  ends : ∃ i', i = i' ++ [byte ';']
  plain : ∀ x ∈ i, isStatementByte x ∨ isLayout x
  crlf_iff : crlf <:+: a ++ (i ++ b) ↔ crlf <:+: a ++ b
  indent_eq : ∀ x, (lastLine (a ++ i) ++ x).takeWhile isBlank =
    (lastLine a ++ x).takeWhile isBlank

/-- A needle that is found behind `a` does not occur in `a`. -/
theorem indexOf?_eq_none_of_le {needle a b : Text} (hne : needle ≠ [])
    (h : ∀ o ∈ indexOf? needle (a ++ b), a.length ≤ o) : indexOf? needle a = none := by
  rw [Text.indexOf?_eq_none_iff]
  rintro ⟨s, t, rfl⟩
  cases hi : indexOf? needle (s ++ needle ++ t ++ b) with
  | none =>
    refine Text.indexOf?_eq_none_iff.mp hi ⟨s, t ++ b, ?_⟩
    simp only [List.append_assoc]
  | some o =>
    have ho := h o hi
    have hlen : 0 < needle.length := List.length_pos_of_ne_nil hne
    simp only [List.length_append] at ho
    refine Text.not_isPrefix_drop_of_lt (k := s.length) hi (by omega) ?_
    rw [List.append_assoc, List.append_assoc, List.drop_left]
    exact List.prefix_append _ _

/-- The content of a list behind an insertion ends where it did. -/
theorem contentEnd_insert {a i b : Text} {start closer : Nat} (hstart : a.length ≤ start)
    (hc : start ≤ closer) : contentEnd (a ++ (i ++ b)) (i.length + start) (i.length + closer) =
      i.length + contentEnd (a ++ b) start closer := by
  have hle := length_takeWhile_between_le (a ++ b) isLayout hc
  rw [contentEnd, contentEnd, Text.between_insert hstart]
  omega

/-- The closer of a list behind an insertion is found as before. -/
theorem listClose?_insert {spec : AnchorSpec} {a i b : Text} {o : Nat} (ho : a.length ≤ o)
    (hs : spec.Accepted) :
    spec.listClose? (a ++ (i ++ b)) (i.length + o) =
      (spec.listClose? (a ++ b) o).map (i.length + ·) := by
  obtain ⟨n, hn⟩ := Nat.exists_eq_succ_of_ne_zero (List.length_pos_of_mem hs.bracket_mem).ne'
  have hinsert := Dart.matchingBracket_insert (a := a) (i := i) (b := b) (o := o + n) (by omega)
  rw [← Nat.add_assoc] at hinsert
  simp only [AnchorSpec.listClose?, AnchorSpec.listStart, hn, Nat.add_succ]
  exact hinsert

namespace Addition

variable {a i b : Text} (h : Addition a i b)

include h

/-- A needle that holds a bracket and no semicolon is found behind an addition as before. -/
theorem indexOf? {needle : Text} {c : Byte} (hs : byte ';' ∉ needle) (hc : c ∈ needle)
    (hstmt : isStatementByte c = false) (hlayout : isLayout c = false)
    (hbehind : ∀ o ∈ indexOf? needle (a ++ b), a.length ≤ o) :
    indexOf? needle (a ++ (i ++ b)) = (indexOf? needle (a ++ b)).map (i.length + ·) := by
  have hne : needle ≠ [] := List.ne_nil_of_mem hc
  have hi : c ∉ i := by
    intro hmem
    rcases h.plain c hmem with h | h
    · exact absurd h (by simp [hstmt])
    · exact absurd h (by simp [hlayout])
  obtain ⟨a', rfl⟩ := h.behind
  obtain ⟨i', rfl⟩ := h.ends
  have ha' : Text.indexOf? needle a' = none := by
    have ha := indexOf?_eq_none_of_le hne hbehind
    rw [Text.indexOf?_eq_none_iff] at ha ⊢
    exact fun hin => ha (hin.trans (List.prefix_append _ _).isInfix)
  have hi' : Text.indexOf? needle i' = none :=
    Text.indexOf?_eq_none_of_mem hc fun hmem => hi (List.mem_append_left _ hmem)
  simp only [List.append_assoc, List.singleton_append]
  rw [Text.indexOf?_append_cons hne hs, Text.indexOf?_append_cons hne hs,
    Text.indexOf?_append_cons hne hs, ha', hi']
  simp only [Option.none_or, Option.map_map, List.length_append, List.length_singleton]
  refine Option.map_congr fun n _ => ?_
  simp only [Function.comp_apply]
  omega

theorem lineBreak : lineBreak (a ++ (i ++ b)) = lineBreak (a ++ b) :=
  Text.lineBreak_eq_of_infix_iff h.crlf_iff

theorem lineIndent {o : Nat} (ho : a.length ≤ o) :
    lineIndent (a ++ (i ++ b)) (i.length + o) = lineIndent (a ++ b) o :=
  Text.lineIndent_insert ho h.indent_eq

/-- An addition ends on a line that is indented like the one it was written below. -/
theorem lineIndent_end :
    Text.lineIndent (a ++ (i ++ b)) ((a ++ i).length - 1) =
      Text.lineIndent (a ++ b) (a.length - 1) := by
  obtain ⟨a', rfl⟩ := h.behind
  obtain ⟨i', rfl⟩ := h.ends
  have hsemi : isBlank (byte ';') = false := by decide
  have hcut : a' ++ [byte ';'] ++ (i' ++ [byte ';'] ++ b) =
      (a' ++ [byte ';'] ++ i') ++ [byte ';'] ++ b := by simp
  have hline := h.indent_eq []
  have hlast (t : Text) : (lastLine (t ++ [byte ';']) ++ []).takeWhile isBlank =
      (lastLine t).takeWhile isBlank := by
    rw [Text.lastLine_append (by decide), List.append_nil, Text.takeWhile_append_cons hsemi]
  rw [← List.append_assoc _ i', hlast, hlast] at hline
  rw [hcut, ← List.append_assoc _ i', Text.lineIndent_concat hsemi, Text.lineIndent_concat hsemi,
    hline]

/-- A block below a line behind an addition is the block that was written there before. -/
theorem blockBelow {o : Nat} (ho : a.length < o) (declaration : List Text) :
    blockBelow (a ++ (i ++ b)) (i.length + o) declaration =
      (blockBelow (a ++ b) o declaration).ahead i.length := by
  rw [Registry.blockBelow, Registry.blockBelow, h.lineBreak, Nat.add_sub_assoc (by omega),
    h.lineIndent (by omega)]
  rfl

/-! ## Places behind an addition -/

section Places

variable {spec : AnchorSpec} {route : Route}

theorem containerOpen? (hs : spec.Accepted)
    (hbehind : ∀ o ∈ spec.containerOpen? (a ++ b), a.length ≤ o) :
    spec.containerOpen? (a ++ (i ++ b)) = (spec.containerOpen? (a ++ b)).map (i.length + ·) :=
  h.indexOf? hs.semicolon_not_mem_signature (brace_mem_signature spec) (by decide) (by decide)
    hbehind

/-- The braces of a class behind an addition match as before. -/
theorem containerBraces? (hs : spec.Accepted)
    (hbehind : ∀ o ∈ spec.containerOpen? (a ++ b), a.length ≤ o) :
    spec.containerBraces? (a ++ (i ++ b)) =
      (spec.containerBraces? (a ++ b)).map fun x => (i.length + x.1, i.length + x.2) := by
  have hlen : 0 < spec.signature.length := List.length_pos_of_mem (brace_mem_signature spec)
  simp only [AnchorSpec.containerBraces?, h.containerOpen? hs hbehind]
  cases hopen : spec.containerOpen? (a ++ b) with
  | none => rfl
  | some o =>
    have ho := hbehind o hopen
    have hbrace := Dart.matchingBracket_insert (a := a) (i := i) (b := b)
      (o := o + spec.signature.length - 1) (by omega)
    have hopener : i.length + o + spec.signature.length - 1 =
        i.length + (o + spec.signature.length - 1) := by omega
    simp only [Option.map_some, Option.bind_eq_bind, Option.bind_some, hopener, hbrace]
    cases Dart.matchingBracket (a ++ b) (o + spec.signature.length - 1) <;> rfl

/-- The name constants of a class behind an addition are found as before. -/
theorem constantEnd? (hs : spec.Accepted)
    (hbehind : ∀ o ∈ spec.containerOpen? (a ++ b), a.length ≤ o) :
    spec.constantEnd? (a ++ (i ++ b)) = (spec.constantEnd? (a ++ b)).map (i.length + ·) := by
  simp only [AnchorSpec.constantEnd?, h.containerBraces? hs hbehind]
  cases hbraces : spec.containerBraces? (a ++ b) with
  | none => rfl
  | some braces =>
    obtain ⟨opener, closer⟩ := braces
    obtain ⟨o, ho, hle, -, -⟩ := exists_of_containerBraces_eq hbraces
    have hbody := Text.between_insert (a := a) (i := i) (b := b)
      (show a.length ≤ opener + 1 by have := hbehind o ho; omega) closer
    rw [List.drop_take, List.drop_take] at hbody
    simp only [Option.map_some, Option.bind_eq_bind, Option.bind_some, Option.pure_def,
      Nat.add_assoc] at hbody ⊢
    rw [hbody]
    cases nameConstantEnd? _ <;> rfl

theorem listOpen? (hs : spec.Plain) (hbehind : ∀ o ∈ spec.listOpen? (a ++ b), a.length ≤ o) :
    spec.listOpen? (a ++ (i ++ b)) = (spec.listOpen? (a ++ b)).map (i.length + ·) :=
  h.indexOf? hs.semicolon_not_mem hs.bracket_mem (by decide) (by decide) hbehind

/-! ## Merges behind an addition -/

/-- The constants go to the same place of a document with an addition in front of it. -/
theorem mergeConstants (hs : spec.Accepted)
    (hbehind : ∀ o ∈ spec.containerOpen? (a ++ b), a.length ≤ o)
    (hdeclares : declares (a ++ (i ++ b)) (constantLines route) =
      declares (a ++ b) (constantLines route)) :
    mergeConstants (a ++ (i ++ b)) (spec.scan (a ++ (i ++ b))) route =
      (mergeConstants (a ++ b) (spec.scan (a ++ b)) route).ahead i.length := by
  simp only [Registry.mergeConstants, AnchorSpec.scan, hdeclares, h.containerOpen? hs hbehind,
    h.constantEnd? hs hbehind]
  split
  · rfl
  · cases hc : spec.constantEnd? (a ++ b) with
    | none => cases spec.containerOpen? (a ++ b) <;> rfl
    | some c =>
      obtain ⟨o, ho, hoc⟩ := lt_constantEnd hc
      have hblock := h.blockBelow (o := c) (by have := hbehind o ho; omega) (constantLines route)
      simp only [show spec.containerOpen? (a ++ b) = some o from ho, Option.map_some, hblock]
      rfl

/-- An entry is appended in the same way to a list behind an addition. -/
theorem appendEntry (spec : AnchorSpec) (route : Route) {start closer : Nat}
    (hstart : a.length < start) (hc : start ≤ closer) :
    appendEntry spec (a ++ (i ++ b)) (i.length + start) (i.length + closer) route =
      (appendEntry spec (a ++ b) start closer route).ahead i.length := by
  have htail := (contentEnd_bounds (a ++ b) hc).1
  have hbefore : Text.lineIndent (a ++ (i ++ b))
    (beforeContent (a ++ (i ++ b)) (i.length + start)) =
      Text.lineIndent (a ++ b) (beforeContent (a ++ b) start) := by
    rw [beforeContent, if_neg (by omega), beforeContent, if_neg (by omega),
      Nat.add_sub_assoc (by omega), h.lineIndent (by omega)]
  have hclosing := Text.between_insert (a := a) (i := i) (b := b) (hstart.le.trans htail) closer
  simp only [Registry.appendEntry, Dart.lastCode?_insert hstart, contentEnd_insert hstart.le hc,
    h.lineBreak, hbefore, hclosing, h.lineIndent (o := closer) (by omega)]
  cases hlast : Dart.lastCode? (a ++ b) start closer with
  | none => rfl
  | some last =>
    have hbounds := Dart.lastCode?_bounds hlast
    simp only [Option.map_some, h.lineIndent (o := last) (by omega),
      Text.getElem?_insert (a := a) (i := i) (b := b) (o := last) (by omega)]
    split <;> rfl

/-- The entry goes to the same place of a document with an addition in front of it. -/
theorem mergeEntry (hs : spec.Plain) (hbehind : ∀ o ∈ spec.listOpen? (a ++ b), a.length ≤ o)
    (hdeclares : declares (a ++ (i ++ b)) (entryLines spec route) =
      declares (a ++ b) (entryLines spec route)) :
    mergeEntry spec (a ++ (i ++ b)) (spec.scan (a ++ (i ++ b))) route =
      (mergeEntry spec (a ++ b) (spec.scan (a ++ b)) route).ahead i.length := by
  simp only [Registry.mergeEntry, AnchorSpec.scan, hdeclares, h.listOpen? hs hbehind]
  split
  · rfl
  · cases hopen : spec.listOpen? (a ++ b) with
    | none => rfl
    | some o =>
      have ho := hbehind o hopen
      simp only [Option.map_some, Option.bind_some, listClose?_insert ho hs.toAccepted]
      cases hclose : spec.listClose? (a ++ b) o with
      | none => rfl
      | some closer =>
        obtain ⟨hstart, hcloser, -⟩ := listClose?_bounds hs.toAccepted hclose
        have hentry := h.appendEntry spec route (Nat.lt_of_le_of_lt ho hstart) hcloser
        rw [AnchorSpec.listStart, ← Nat.add_assoc] at hentry
        exact hentry

end Places

end Addition

/-! ## Blocks that are additions -/

/-- Statements written below a line that ends `a` with a semicolon are an addition. The indentation
of the last new line is the one that was copied from the anchor's line. -/
theorem addition_blockBelow {a b last : Text} (init : List Text)
    (ha : ∃ a', a = a' ++ [byte ';'])
    (hstmt : ∀ l ∈ init ++ [last], ∀ x ∈ l, isStatementByte x)
    (hfirst : ∃ c t, last = c :: t ∧ isBlank c = false) (hends : ∃ t, last = t ++ [byte ';']) :
    Addition a (blockBelow (a ++ b) a.length (init ++ [last])).text b := by
  have hnl := Text.isLineBreak_lineBreak (a ++ b)
  have hindent : ∀ x ∈ Text.lineIndent (a ++ b) (a.length - 1), isBlank x := fun x =>
    Text.isBlank_of_mem_lineIndent
  have hlast : newline ∉ last := fun hmem =>
    absurd (hstmt last (by simp) _ hmem) (by decide)
  have hbreak : ∀ x ∈ lineBreak (a ++ b), isLayout x := by
    rcases hnl with h | h <;> rw [h] <;> exact List.all_eq_true.mp rfl
  have hend : ∃ i', (blockBelow (a ++ b) a.length (init ++ [last])).text = i' ++ [byte ';'] := by
    obtain ⟨t, rfl⟩ := hends
    exact ⟨_, by rw [blockBelow, Text.block_append, Text.block_cons, Text.block_nil,
      List.append_nil, ← List.append_assoc, ← List.append_assoc]⟩
  refine ⟨ha, hend, ?_, ?_, ?_⟩
  · intro x hx
    rcases Text.mem_block hx with hx | hx | ⟨l, hl, hx⟩
    · exact Or.inr (hbreak x hx)
    · exact Or.inr (Byte.isLayout_of_isBlank x (hindent x hx))
    · exact Or.inl (hstmt l hl x hx)
  · have hbehind : Byte.carriageReturn ∉ a.getLast? := by
      obtain ⟨a', rfl⟩ := ha
      rw [List.getLast?_concat]
      decide
    have hsuits : Text.Suits (a ++ b) (blockBelow (a ++ b) a.length (init ++ [last])).text :=
      Text.suits_block hindent fun l hl =>
        Text.oneLine_of_forall (hstmt l hl) (by decide) (by decide)
    exact ((Text.KeepsBreaks.refl (a ++ b)).insert hbehind hsuits).crlf_iff
  · intro x
    obtain ⟨a', rfl⟩ := ha
    obtain ⟨c, t, hc, hblank⟩ := hfirst
    have hsemi : isBlank (byte ';') = false := by decide
    have hind := Text.lineIndent_concat hsemi a' b
    have hidem : ((lastLine a').takeWhile isBlank).takeWhile isBlank =
        (lastLine a').takeWhile isBlank := List.takeWhile_idem
    rw [blockBelow, Text.lastLine_block hnl hindent _ hlast, hc, hind, List.append_assoc,
      List.cons_append, Text.takeWhile_append_cons hblank, hidem, Text.lastLine_append (by decide),
      List.append_assoc, List.singleton_append, Text.takeWhile_append_cons hsemi]

/-- An import written behind a semicolon is an addition. -/
theorem addition_importLines {a : Text} {route : Route} (b : Text)
    (hpath : ∀ x ∈ route.importPath, Route.isPlainByte x) (ha : ∃ a', a = a' ++ [byte ';']) :
    Addition a (blockBelow (a ++ b) a.length (importLines route)).text b := by
  have hstmt := isStatementByte_of_mem_importLines hpath
  obtain ⟨u, hu, -⟩ := exists_importLine route
  obtain ⟨v, hv⟩ := exists_append_importLine route
  have hends := hu.symm.trans hv
  rw [hu] at hstmt ⊢
  exact addition_blockBelow [] ha hstmt ⟨byte 'i', u, rfl, by decide⟩
    ⟨v, List.singleton_inj.mp hends⟩

/-- Constants written behind a semicolon are an addition. -/
theorem addition_constantLines {a : Text} {route : Route} (b : Text) (hr : route.Regular)
    (ha : ∃ a', a = a' ++ [byte ';']) :
    Addition a (blockBelow (a ++ b) a.length (constantLines route)).text b := by
  obtain ⟨t, ht⟩ := constantLine_eq (route.symbol ++ lit "Name") route.name
  exact addition_blockBelow [constantLine route.symbol route.path] ha
    (isStatementByte_of_mem_constantLines hr) ⟨byte 's', t ++ [byte ';'], ht, by decide⟩
    ⟨byte 's' :: t, by rw [ht, List.cons_append]⟩

end FlutterScaffold.Registry
