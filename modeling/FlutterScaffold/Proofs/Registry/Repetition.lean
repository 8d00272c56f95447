import FlutterScaffold.Proofs.Registry.Entry
import FlutterScaffold.Registry.Patch

/-!
# Recognizing what was just inserted

Imports, constants and entries do not get into each other's way: inserting one kind makes no
declaration of another kind appear or vanish, also when several are inserted at once. So whether an
inserted import or pair of constants is recognized depends on its own place only: nothing but blanks
may follow on the line, unless the lines up to the place spell the very same declaration (`Fits`).
-/

namespace FlutterScaffold.Registry

open FlutterScaffold.Text (splice lastLine firstLine bareLines block IsLineBreak)
open Byte (newline isMargin isBlank)

/-- A declaration that is inserted there stays recognizable: only blanks follow on the line, or the
lines up to the place are those of the declaration. -/
def Fits (doc : Text) (declaration : List Text) (i : Insertion) : Prop :=
  (∀ x ∈ firstLine (doc.drop i.offset), isMargin x) ∨
    wanted declaration <:+ bareLines (doc.take i.offset)

/-! ## Presence while several declarations are inserted -/

section Presence

variable {spec : AnchorSpec} {doc : Text} {route : Route}

/-- Insertions in front of a line leave the line alone. -/
theorem exists_splice_append {a m : Text} {l : List Insertion} (ha : lastLine a = [])
    (hm : newline ∉ m) (hl : ∀ i ∈ l, i.offset < a.length) :
    ∃ p, splice (a ++ m) l = p ++ m ∧ lastLine (p ++ m) = m := by
  have hbefore : l.filter (·.offset < a.length) = l :=
    List.filter_eq_self.mpr fun i hi => by simpa using hl i hi
  have hbehind : l.filter (a.length ≤ ·.offset) = [] :=
    List.filter_eq_nil_iff.mpr fun i hi => by simpa using hl i hi
  refine ⟨splice a l, ?_, ?_⟩
  · rw [Text.splice_append, hbefore, hbehind, List.map_nil, Text.splice_nil]
  · rw [Text.lastLine_append hm]
    rcases Text.eq_nil_or_of_lastLine_eq_nil ha with rfl | ⟨b, rfl⟩
    · cases l with
      | nil => rfl
      | cons i l => exact absurd (hl i (by simp)) (by simp)
    · obtain ⟨u, hu⟩ := Text.exists_splice_concat (a := b) (x := newline) (l := l) fun i hi => by
        have := hl i hi
        rw [List.length_append, List.length_singleton] at this
        omega
      rw [hu, Text.lastLine_append_cons (by simp), List.nil_append]

private theorem exists_append_append {a m : Text} {c : Byte} (h : ∃ m', m = m' ++ [c]) :
    ∃ a', a ++ m = a' ++ [c] := by
  obtain ⟨m', rfl⟩ := h
  exact ⟨a ++ m', by rw [List.append_assoc]⟩

/-- Statements make no entry appear or vanish, whatever else is inserted. -/
theorem declares_entryLines_splice_cons {a b last nl indent : Text} (init : List Text)
    {other : Route} {l : List Insertion} (hs : spec.Accepted) (hother : other.Regular)
    (hnl : IsLineBreak nl) (hindent : ∀ x ∈ indent, isBlank x)
    (ha : ∃ a', a = a' ++ [byte ';']) (hinit : ∀ l ∈ init, newline ∉ l ∧ byte ';' ∈ l)
    (hlast : newline ∉ last ∧ byte ';' ∈ last) :
    declares (splice (a ++ b) (⟨a.length, block nl indent (init ++ [last])⟩ :: l))
      (entryLines spec other) = declares (splice (a ++ b) l) (entryLines spec other) := by
  obtain ⟨u, hu⟩ : ∃ u, splice a (l.filter (·.offset < a.length)) = u ++ [byte ';'] := by
    obtain ⟨a', rfl⟩ := ha
    refine Text.exists_splice_concat fun i hi => ?_
    have hlt := List.of_mem_filter hi
    simp only [decide_eq_true_eq, List.length_append, List.length_singleton] at hlt
    omega
  rw [Text.splice_cons_append, Text.splice_append a b l, hu]
  refine declares_entryLines_insert hnl hindent init hs hother hinit hlast ?_
  rw [Text.lastLine_append (by decide)]
  simp

theorem declares_entryLines_mergeImport {other : Route} (l : List Insertion) (hs : spec.Accepted)
    (hother : other.Regular) (hpath : newline ∉ route.importPath) :
    declares (splice doc ((mergeImport doc (spec.scan doc) route).insertions ++ l))
      (entryLines spec other) = declares (splice doc l) (entryLines spec other) := by
  by_cases hnil : (mergeImport doc (spec.scan doc) route).insertions = []
  · rw [hnil, List.nil_append]
  · obtain ⟨a, m, b, nl, indent, hdoc, -, -, hm, hnl, hindent, heq⟩ := exists_of_mergeImport hnil
    obtain ⟨t, ht, hsemi⟩ := exists_importLine route
    have hline := newline_not_mem_importLines hpath
    rw [ht, List.forall_mem_singleton] at hline
    rw [heq, ht, hdoc]
    exact declares_entryLines_splice_cons [] hs hother hnl hindent
      (exists_append_append (exists_append_of_isImport hm)) (by simp) ⟨hline, hsemi⟩

theorem declares_entryLines_mergeConstants {other : Route} (l : List Insertion)
    (hs : spec.Accepted) (hother : other.Regular) (hr : route.Regular) :
    declares (splice doc ((mergeConstants doc (spec.scan doc) route).insertions ++ l))
      (entryLines spec other) = declares (splice doc l) (entryLines spec other) := by
  by_cases hnil : (mergeConstants doc (spec.scan doc) route).insertions = []
  · rw [hnil, List.nil_append]
  · obtain ⟨a, m, b, nl, indent, hdoc, -, hm, hnl, hindent, heq⟩ := exists_of_mergeConstants hnil
    have hlines := constantLines_statement hr
    rw [heq, hdoc]
    exact declares_entryLines_splice_cons [constantLine route.symbol route.path] hs hother hnl
      hindent (exists_append_append (exists_append_of_isNameConstant hm))
      (fun l hl => hlines l (by simp_all [constantLines])) (hlines _ (by simp [constantLines]))

/-- No pair of constants is inserted within the import that is the anchor of another insertion. -/
theorem offset_lt_of_mem_mergeConstants {a m b : Text} {i : Insertion} {other : Route}
    (hdoc : doc = a ++ m ++ b) (ha : lastLine a = []) (hm : IsImport m)
    (hi : i ∈ (mergeConstants doc (spec.scan doc) other).insertions)
    (hlt : i.offset < (a ++ m).length) : i.offset < a.length := by
  obtain ⟨x, m', y, nl, indent, hcut, hnewline, hm', -, -, heq⟩ :=
    exists_of_mergeConstants (List.ne_nil_of_mem hi)
  rw [heq, List.mem_singleton] at hi
  rcases length_le_or_of_isNameConstant (hdoc.symm.trans hcut) ha hm hm' hnewline with h | h
  · rwa [hi]
  · rw [hi] at hlt
    exact absurd hlt (by simpa using h)

/-- An import makes no constants appear or vanish, also when constants are inserted with it. -/
theorem declares_constantLines_mergeImport {other : Route} {l : List Insertion}
    (hpath : newline ∉ route.importPath)
    (hl : ∀ i ∈ l, i ∈ (mergeConstants doc (spec.scan doc) route).insertions) :
    declares (splice doc ((mergeImport doc (spec.scan doc) route).insertions ++ l))
      (constantLines other) = declares (splice doc l) (constantLines other) := by
  by_cases hnil : (mergeImport doc (spec.scan doc) route).insertions = []
  · rw [hnil, List.nil_append]
  · obtain ⟨a, m, b, nl, indent, hdoc, ha, hnewline, hm, hnl, hindent, heq⟩ :=
      exists_of_mergeImport hnil
    obtain ⟨p, hp, hlast⟩ := exists_splice_append (l := l.filter (·.offset < (a ++ m).length)) ha
      hnewline fun i hi =>
        offset_lt_of_mem_mergeConstants hdoc ha hm (hl i (List.mem_of_mem_filter hi))
          (by simpa using List.of_mem_filter hi)
    rw [heq, hdoc, List.singleton_append, Text.splice_cons_append, Text.splice_append (a ++ m) b l,
      hp]
    exact declares_constantLines_insert hnl hindent p _ hpath hlast hm

/-- Constants make no import appear or vanish. -/
theorem declares_importLines_mergeConstants {other : Route} (hr : route.Regular) :
    declares (splice doc (mergeConstants doc (spec.scan doc) route).insertions)
      (importLines other) = declares doc (importLines other) := by
  by_cases hnil : (mergeConstants doc (spec.scan doc) route).insertions = []
  · rw [hnil, Text.splice_nil]
  · obtain ⟨a, m, b, nl, indent, hdoc, hnewline, hm, hnl, hindent, heq⟩ :=
      exists_of_mergeConstants hnil
    rw [heq, hdoc, Text.splice_singleton]
    exact declares_importLines_insert hnl hindent a b hr hnewline hm

/-- Inserted constants are recognized exactly when they fit their place. -/
theorem declares_constantLines_mergeConstants_iff (hr : route.Regular)
    (hstep : (mergeConstants doc (spec.scan doc) route).status ≠ .missing) :
    declares (splice doc (mergeConstants doc (spec.scan doc) route).insertions)
      (constantLines route) ↔
      ∀ i ∈ (mergeConstants doc (spec.scan doc) route).insertions,
        Fits doc (constantLines route) i := by
  by_cases hnil : (mergeConstants doc (spec.scan doc) route).insertions = []
  · rw [hnil, Text.splice_nil]
    simpa using mergeConstants_insertions_eq_nil_iff.mp ⟨hnil, hstep⟩
  · have hnot : ¬ declares doc (constantLines route) = true := fun h =>
      hnil (mergeConstants_insertions_eq_nil_iff.mpr h).1
    obtain ⟨a, m, b, nl, indent, hdoc, hnewline, hm, hnl, hindent, heq⟩ :=
      exists_of_mergeConstants hnil
    rw [Bool.not_eq_true, hdoc] at hnot
    rw [heq, hdoc, Text.splice_singleton,
      declares_constantLines_insert_iff hnl hindent hr hnot, List.forall_mem_singleton, Fits,
      List.drop_left, List.take_left, wanted_constantLines]

/-- Whether only blanks stand on the rest of a line is told by what stands up to a semicolon. -/
private theorem forall_isMargin_firstLine_congr {a b c : Text} (ha : byte ';' ∈ a) :
    (∀ x ∈ firstLine (a ++ b), isMargin x) ↔ ∀ x ∈ firstLine (a ++ c), isMargin x := by
  by_cases hnewline : newline ∈ a
  · rw [Text.firstLine_append_of_mem hnewline, Text.firstLine_append_of_mem hnewline]
  · have hfalse (r : Text) : ¬ ∀ x ∈ firstLine (a ++ r), isMargin x := by
      intro h
      rw [Text.firstLine_append hnewline] at h
      exact absurd (h _ (List.mem_append_left _ ha)) (by decide)
    exact iff_of_false (hfalse b) (hfalse c)

/-- In front of constants the line ends. -/
private theorem isMargin_of_mem_firstLine_block {nl indent b : Text} (hnl : Text.IsLineBreak nl) :
    ∀ x ∈ firstLine (block nl indent (constantLines route) ++ b), isMargin x := by
  have hblock : firstLine (block nl indent (constantLines route) ++ b) = [] ∨
      firstLine (block nl indent (constantLines route) ++ b) = [Byte.carriageReturn] := by
    rcases hnl with rfl | rfl
    · exact Or.inl rfl
    · exact Or.inr rfl
  rcases hblock with h | h <;> rw [h] <;> exact List.all_eq_true.mp rfl

/-- A cut in front of the end of a name constant leaves its semicolon behind the cut. -/
private theorem exists_cut_of_isNameConstant {a b x m y : Text} (h : a ++ b = x ++ m ++ y)
    (hm : IsNameConstant m) (hlt : a.length < (x ++ m).length) :
    ∃ v, x ++ m = a ++ v ∧ b = v ++ y ∧ byte ';' ∈ v := by
  obtain ⟨v, hv, hb⟩ : ∃ v, x ++ m = a ++ v ∧ b = v ++ y := by
    rcases List.append_eq_append_iff.mp h with h | ⟨v, hv, -⟩
    · exact h
    · have hlen := congrArg List.length hv
      rw [List.length_append] at hlen
      omega
  refine ⟨v, hv, hb, ?_⟩
  obtain ⟨m', hend⟩ := exists_append_of_isNameConstant hm
  have hlast := congrArg List.getLast? hv
  have hne : v ≠ [] := by
    rintro rfl
    rw [hv, List.append_nil] at hlt
    exact absurd hlt (Nat.lt_irrefl _)
  rw [hend, ← List.append_assoc, List.getLast?_concat,
    List.getLast?_append_of_ne_nil _ hne] at hlast
  exact List.mem_of_getLast? hlast.symm

/-- Behind an anchor, constants leave the rest of the line as it is, unless they are inserted at the
anchor itself. They go in front of the anchor, right behind it, or further on, where a whole
constant stands between and its semicolon is no margin. -/
private theorem forall_isMargin_rest_iff {a b : Text} (hdoc : doc = a ++ b) {l : List Insertion}
    (hl : l = [] ∨ l = (mergeConstants doc (spec.scan doc) route).insertions) :
    (∀ x ∈ firstLine (splice b ((l.filter (a.length ≤ ·.offset)).map
      (Insertion.behind a.length))), isMargin x) ↔
      (∀ x ∈ firstLine b, isMargin x) ∨ ∃ j ∈ l, j.offset = a.length := by
  by_cases hnil : l = []
  · simp [hnil]
  · rcases hl with hl | hl
    · exact absurd hl hnil
    · rw [hl] at hnil
      obtain ⟨x, m, y, nl, indent, hcut, hnewline, hm, hnl, hindent, heq⟩ :=
        exists_of_mergeConstants hnil
      rw [hl, heq]
      rcases Nat.lt_trichotomy (x ++ m).length a.length with hlt | hat | hgt
      · rw [List.filter_cons_of_neg (by simpa using hlt), List.filter_nil, List.map_nil,
          Text.splice_nil]
        simpa using fun h => absurd h (by simpa using hlt.ne)
      · have hsplice := Text.splice_singleton [] b (block nl indent (constantLines route))
        rw [List.filter_cons_of_pos (by simp [hat]), List.filter_nil, List.map_cons, List.map_nil,
          Insertion.behind, hat, Nat.sub_self]
        refine iff_of_true ?_ (Or.inr ⟨_, List.mem_singleton_self _, rfl⟩)
        rw [show splice b [⟨0, block nl indent (constantLines route)⟩] =
          block nl indent (constantLines route) ++ b from hsplice]
        exact isMargin_of_mem_firstLine_block hnl
      · obtain ⟨v, hv, hb, hmem⟩ := exists_cut_of_isNameConstant (hdoc.symm.trans hcut) hm hgt
        have hlen : (x ++ m).length - a.length = v.length := by
          rw [hv, List.length_append, Nat.add_sub_cancel_left]
        rw [List.filter_cons_of_pos (by simpa using hgt.le), List.filter_nil, List.map_cons,
          List.map_nil, Insertion.behind, hlen, hb, Text.splice_singleton]
        rw [forall_isMargin_firstLine_congr hmem (c := y)]
        simpa using fun h => absurd h (by simpa using hgt.ne')

/-- An inserted import is recognized exactly when it fits its place or constants are written right
behind it. The last line in front of the insertion is the anchor itself. -/
theorem declares_importLines_mergeImport_iff (hr : route.Regular)
    (hpath : newline ∉ route.importPath) {l : List Insertion}
    (hl : l = [] ∨ l = (mergeConstants doc (spec.scan doc) route).insertions)
    (hstep : (mergeImport doc (spec.scan doc) route).status ≠ .missing) :
    declares (splice doc ((mergeImport doc (spec.scan doc) route).insertions ++ l))
      (importLines route) ↔
      ∀ i ∈ (mergeImport doc (spec.scan doc) route).insertions,
        Fits doc (importLines route) i ∨ ∃ j ∈ l, j.offset = i.offset := by
  have hkept : declares (splice doc l) (importLines route) = declares doc (importLines route) := by
    rcases hl with rfl | rfl
    · rw [Text.splice_nil]
    · exact declares_importLines_mergeConstants hr
  by_cases hnil : (mergeImport doc (spec.scan doc) route).insertions = []
  · rw [hnil, List.nil_append, hkept]
    simpa using mergeImport_insertions_eq_nil_iff.mp ⟨hnil, hstep⟩
  · have hnot : ¬ declares (splice doc l) (importLines route) = true := fun h =>
      hnil (mergeImport_insertions_eq_nil_iff.mpr (hkept ▸ h)).1
    obtain ⟨a, m, b, nl, indent, hdoc, ha, hnewline, hm, hnl, hindent, heq⟩ :=
      exists_of_mergeImport hnil
    obtain ⟨t, ht, -⟩ := exists_importLine route
    obtain ⟨p, hp, hlast⟩ := exists_splice_append (l := l.filter (·.offset < (a ++ m).length)) ha
      hnewline fun i hi => by
        rcases hl with rfl | rfl
        · simp at hi
        · exact offset_lt_of_mem_mergeConstants hdoc ha hm (List.mem_of_mem_filter hi)
            (by simpa using List.of_mem_filter hi)
    have hrest := forall_isMargin_rest_iff hdoc hl
    have hspell : wanted (importLines route) <:+ bareLines (a ++ m) ↔
        Text.trim isMargin m = byte 'i' :: t := by
      rw [ht, wanted, List.map_cons, List.map_nil, trim_importLine ht,
        Text.bareLines_eq_dropLast_append, Text.lastLine_append hnewline, ha, List.nil_append]
      constructor
      · rintro ⟨r, hr⟩
        exact (List.singleton_inj.mp (List.append_inj_right' hr rfl)).symm
      · intro h
        rw [h]
        exact List.suffix_append _ _
    rw [Bool.not_eq_true] at hnot
    rw [hdoc, Text.splice_append (a ++ m) b l, hp] at hnot
    rw [heq, List.forall_mem_singleton, hdoc, List.singleton_append, Text.splice_cons_append, hp,
      declares_importLines_insert_iff hnl hindent ht hpath hnot, hrest, hlast, Fits, List.drop_left,
      List.take_left, hspell]
    exact or_right_comm

end Presence

end FlutterScaffold.Registry
