import FlutterScaffold.Proofs.Dart.Matching
import FlutterScaffold.Proofs.Registry.Independence
import FlutterScaffold.Registry.Merge

/-!
# Where the merges insert

Each merge leaves a declaration alone exactly when the document has it, and otherwise inserts it at
its anchor: the import and the constants as one block behind the semicolon of the anchor, the entry
within the brackets of the list.
-/

namespace FlutterScaffold.Registry

open FlutterScaffold.Text (lastLine block IsLineBreak)
open Byte (newline isBlank isLayout)

namespace AnchorSpec.Accepted

variable {spec : AnchorSpec} (h : spec.Accepted)

include h

/-- The token of a list holds its bracket. -/
theorem bracket_mem : byte '[' ∈ spec.listToken := List.mem_of_getLast? h.listToken

/-- The signature of a class holds no semicolon. -/
theorem semicolon_not_mem_signature : byte ';' ∉ spec.signature := by
  have hnot : Byte.isIdentifier (byte ';') = false := by decide
  intro hmem
  rcases List.mem_append.mp hmem with hmem | hmem
  · rcases List.mem_append.mp hmem with hmem | hmem
    · exact absurd hmem (by decide)
    · exact absurd (isIdentifier_of_mem_routerClass h _ hmem) (by simp [hnot])
  · exact absurd hmem (by decide)

end AnchorSpec.Accepted

/-- The signature of a class holds its brace. -/
theorem brace_mem_signature (spec : AnchorSpec) : byte '{' ∈ spec.signature := by
  simp [AnchorSpec.signature]

/-! ## Bounds of the places -/

/-- The braces of a class stand at the end of its signature and behind it. -/
theorem exists_of_containerBraces_eq {spec : AnchorSpec} {doc : Text} {opener closer : Nat}
    (h : spec.containerBraces? doc = some (opener, closer)) :
    ∃ o, spec.containerOpen? doc = some o ∧ o ≤ opener ∧
      opener + 1 = o + spec.signature.length ∧
      Dart.matchingBracket doc opener = some closer := by
  simp only [AnchorSpec.containerBraces?, Option.bind_eq_bind, Option.bind_eq_some_iff] at h
  obtain ⟨o, ho, k, hk, heq⟩ := h
  have hlen : 0 < spec.signature.length := List.length_pos_of_mem (brace_mem_signature spec)
  simp only [Option.pure_def, Option.some.injEq, Prod.mk.injEq] at heq
  obtain ⟨rfl, rfl⟩ := heq
  exact ⟨o, ho, by omega, by omega, hk⟩

/-- The last name constant ends behind the start of its class. -/
theorem lt_constantEnd {spec : AnchorSpec} {doc : Text} {c : Nat}
    (h : spec.constantEnd? doc = some c) : ∃ o, spec.containerOpen? doc = some o ∧ o < c := by
  simp only [AnchorSpec.constantEnd?, AnchorSpec.containerBraces?, Option.bind_eq_bind,
    Option.bind_eq_some_iff] at h
  obtain ⟨⟨opener, closer⟩, ⟨o, ho, k, -, hk⟩, e, he, hc⟩ := h
  have hlen : 0 < spec.signature.length := List.length_pos_of_mem (brace_mem_signature spec)
  simp only [Option.pure_def, Option.some.injEq, Prod.mk.injEq] at hk hc
  exact ⟨o, ho, by omega⟩

/-- What is taken from the end of a slice is no longer than the slice. -/
theorem length_takeWhile_between_le (doc : Text) (p : Byte → Bool) {start closer : Nat}
    (h : start ≤ closer) :
    (((doc.take closer).drop start).reverse.takeWhile p).length ≤ closer - start := by
  have hpre := (List.takeWhile_prefix p (l := ((doc.take closer).drop start).reverse)).length_le
  rw [List.length_reverse, List.length_drop, List.length_take] at hpre
  omega

/-- The content of a list ends within it. -/
theorem contentEnd_bounds (doc : Text) {start closer : Nat} (h : start ≤ closer) :
    start ≤ contentEnd doc start closer ∧ contentEnd doc start closer ≤ closer := by
  have hle := length_takeWhile_between_le doc isLayout h
  rw [contentEnd]
  omega

/-- A list token ends with the bracket that opens the list. -/
theorem getElem?_of_listOpen? {spec : AnchorSpec} {doc : Text} {o : Nat} (hs : spec.Accepted)
    (h : spec.listOpen? doc = some o) : doc[spec.listStart o - 1]? = some (byte '[') := by
  obtain ⟨init, hinit⟩ := List.getLast?_eq_some_iff.mp hs.listToken
  obtain ⟨r, hr⟩ := Text.isPrefix_drop_of_indexOf? h
  have hlen : spec.listStart o - 1 = o + init.length := by
    rw [AnchorSpec.listStart, hinit, List.length_append, List.length_singleton]
    omega
  rw [hlen, ← List.getElem?_drop, ← hr, hinit, List.append_assoc, List.getElem?_append_right le_rfl]
  simp

/-- The closer of a list belongs to the last byte of the token. -/
theorem exists_of_listClose? {spec : AnchorSpec} {doc : Text} {o closer : Nat}
    (h : spec.listClose? doc o = some closer) :
    ∃ opener, spec.listStart o = opener + 1 ∧ Dart.matchingBracket doc opener = some closer := by
  rw [AnchorSpec.listClose?] at h
  split at h
  · simp at h
  · rename_i opener hopener
    exact ⟨opener, hopener, h⟩

/-- The content of a list stands in front of its closer. -/
theorem listStart_le_of_listClose? {spec : AnchorSpec} {doc : Text} {o closer : Nat}
    (h : spec.listClose? doc o = some closer) :
      spec.listStart o ≤ closer ∧ closer < doc.length := by
  obtain ⟨opener, hopener, hmatch⟩ := exists_of_listClose? h
  have hbounds := Dart.matchingBracket_bounds hmatch
  omega

/-- The content of a list stands behind its token and in front of its closer. -/
theorem listClose?_bounds {spec : AnchorSpec} (hs : spec.Accepted) {doc : Text} {o closer : Nat}
    (h : spec.listClose? doc o = some closer) :
    o < spec.listStart o ∧ spec.listStart o ≤ closer ∧ closer < doc.length := by
  have hlen : 0 < spec.listToken.length := List.length_pos_of_mem hs.bracket_mem
  refine ⟨?_, listStart_le_of_listClose? h⟩
  rw [AnchorSpec.listStart]
  omega

/-- A refused merge inserts nothing. -/
theorem Step.insertions_of_missing {step : Step} (h : step.status = .missing) :
    step.insertions = [] := by
  cases step with
  | insert first more => simp [status] at h
  | keep => rfl
  | refuse => rfl

/-! ## Where the merges insert -/

/-- An import is inserted as one block below the last import. -/
theorem mergeImport_eq_insert {spec : AnchorSpec} {doc : Text} {route : Route}
    (h : (mergeImport doc (spec.scan doc) route).insertions ≠ []) :
    ∃ e, importEnd? doc = some e ∧ mergeImport doc (spec.scan doc) route =
      .insert (blockBelow doc e (importLines route)) [] := by
  simp only [mergeImport, AnchorSpec.scan] at h ⊢
  split at h
  · simp [Step.insertions] at h
  · rename_i hnot
    rw [if_neg hnot]
    split at h
    · simp [Step.insertions] at h
    · rename_i e he
      exact ⟨e, he, rfl⟩

/-- A pair of constants is inserted as one block below the last name constant. -/
theorem mergeConstants_eq_insert {spec : AnchorSpec} {doc : Text} {route : Route}
    (h : (mergeConstants doc (spec.scan doc) route).insertions ≠ []) :
    ∃ c, spec.constantEnd? doc = some c ∧ mergeConstants doc (spec.scan doc) route =
      .insert (blockBelow doc c (constantLines route)) [] := by
  simp only [mergeConstants, AnchorSpec.scan] at h ⊢
  split at h
  · simp [Step.insertions] at h
  · rename_i hnot
    rw [if_neg hnot]
    split at h
    · rename_i c _ hc
      exact ⟨c, hc, rfl⟩
    · simp [Step.insertions] at h

/-- An entry is inserted behind the token of the list. -/
theorem exists_of_mem_mergeEntry {spec : AnchorSpec} (hs : spec.Accepted) {doc : Text}
    {route : Route} {i : Insertion}
    (h : i ∈ (mergeEntry spec doc (spec.scan doc) route).insertions) :
    ∃ o, spec.listOpen? doc = some o ∧ o ≤ i.offset := by
  simp only [mergeEntry, AnchorSpec.scan] at h
  split at h
  · simp [Step.insertions] at h
  · split at h
    · rename_i o closer hopen hclose
      rw [hopen, Option.bind_some] at hclose
      obtain ⟨hstart, hcloser, -⟩ := listClose?_bounds hs hclose
      have htail := (contentEnd_bounds doc hcloser).1
      refine ⟨o, hopen, ?_⟩
      simp only [appendEntry] at h
      split at h
      · obtain rfl := List.mem_singleton.mp h
        exact hstart.le.trans htail
      · rename_i last hlast
        have hlo := (Dart.lastCode?_bounds hlast).1
        split at h
        · obtain rfl := List.mem_singleton.mp h
          exact hstart.le.trans htail
        · rcases List.mem_cons.mp h with rfl | h
          · exact hstart.le.trans (hlo.trans (Nat.le_succ _))
          · obtain rfl := List.mem_singleton.mp h
            exact hstart.le.trans htail
    · simp [Step.insertions] at h

/-- An inserted import stands behind the import that is its anchor. -/
theorem exists_of_mergeImport {spec : AnchorSpec} {doc : Text} {route : Route}
    (h : (mergeImport doc (spec.scan doc) route).insertions ≠ []) :
    ∃ a m b nl indent, doc = a ++ m ++ b ∧ lastLine a = [] ∧ newline ∉ m ∧ IsImport m ∧
      IsLineBreak nl ∧ (∀ x ∈ indent, isBlank x) ∧
      (mergeImport doc (spec.scan doc) route).insertions =
        [{ offset := (a ++ m).length, text := block nl indent (importLines route) }] := by
  obtain ⟨e, he, heq⟩ := mergeImport_eq_insert h
  obtain ⟨a, m, b, rfl, ha, hnewline, hm, rfl, -⟩ := importEnd?_eq_some_iff.mp he
  exact ⟨a, m, b, _, _, (List.append_assoc _ _ _).symm, ha, hnewline, hm,
    Text.isLineBreak_lineBreak _, fun x => Text.isBlank_of_mem_lineIndent, by rw [heq]; rfl⟩

/-- An inserted pair of constants stands behind the name constant that is its anchor. -/
theorem exists_of_mergeConstants {spec : AnchorSpec} {doc : Text} {route : Route}
    (h : (mergeConstants doc (spec.scan doc) route).insertions ≠ []) :
    ∃ a m b nl indent, doc = a ++ m ++ b ∧ newline ∉ m ∧ IsNameConstant m ∧
      IsLineBreak nl ∧ (∀ x ∈ indent, isBlank x) ∧
      (mergeConstants doc (spec.scan doc) route).insertions =
        [{ offset := (a ++ m).length, text := block nl indent (constantLines route) }] := by
  obtain ⟨c, hc, heq⟩ := mergeConstants_eq_insert h
  obtain ⟨a, m, b, rfl, rfl, hnewline, hm⟩ := exists_of_constantEnd? hc
  exact ⟨a, m, b, _, _, rfl, hnewline, hm, Text.isLineBreak_lineBreak _,
    fun x => Text.isBlank_of_mem_lineIndent, by rw [heq]; rfl⟩

/-! ## Declarations that are kept -/

/-- A merge has nothing to insert and is not refused exactly when the document has the
declaration. -/
theorem mergeImport_insertions_eq_nil_iff {doc : Text} {anchors : Anchors} {route : Route} :
    ((mergeImport doc anchors route).insertions = [] ∧
      (mergeImport doc anchors route).status ≠ .missing) ↔ declares doc (importLines route) := by
  rw [mergeImport]
  split
  · simp_all [Step.insertions, Step.status]
  · split <;> simp_all [Step.insertions, Step.status]

/-- The constants are left alone exactly when the document declares them. -/
theorem mergeConstants_insertions_eq_nil_iff {doc : Text} {anchors : Anchors} {route : Route} :
    ((mergeConstants doc anchors route).insertions = [] ∧
      (mergeConstants doc anchors route).status ≠ .missing) ↔
      declares doc (constantLines route) := by
  rw [mergeConstants]
  split
  · simp_all [Step.insertions, Step.status]
  · split <;> simp_all [Step.insertions, Step.status]

/-- A declared import is left alone. -/
theorem mergeImport_of_declares {doc : Text} {anchors : Anchors} {route : Route}
    (h : declares doc (importLines route)) : mergeImport doc anchors route = .keep := if_pos h

/-- Declared constants are left alone. -/
theorem mergeConstants_of_declares {doc : Text} {anchors : Anchors} {route : Route}
    (h : declares doc (constantLines route)) : mergeConstants doc anchors route = .keep := if_pos h

/-- A declared entry is left alone. -/
theorem mergeEntry_of_declares {spec : AnchorSpec} {doc : Text} {anchors : Anchors} {route : Route}
    (h : declares doc (entryLines spec route)) : mergeEntry spec doc anchors route = .keep :=
  if_pos h

end FlutterScaffold.Registry
