import FlutterScaffold.Proofs.Project.Offsets
import FlutterScaffold.Proofs.Registry.Growth

/-!
# Offsets of a registry

The places that a scan finds lie within the document, each behind what it belongs to
(`scan_placed`). So the merges can be computed with subtractions, looks and cuts that are checked,
and no check ever fails (`mergeEntryByOffsets?_eq`). Nothing is inserted past the end of the
document, and the comma that an entry brings stands in front of it (`merges_well_placed`).
-/

namespace FlutterScaffold.Registry

open FlutterScaffold.Text (block substring?)
open Byte (isLayout newline)

/-- The difference of two offsets; none where it would be below zero. -/
def minus? (m n : Nat) : Option Nat := if n ≤ m then some (m - n) else none

/-- Checked subtraction undoes an addition. -/
theorem minus?_eq_of_add {m n k : Nat} (h : m = k + n) : minus? m n = some k := by
  rw [minus?, if_pos (by omega)]
  congr
  omega

/-! ## Merges by offsets -/

/-- The block of a declaration below the line that ends at offset `anchor`. -/
def insertBelow? (doc : Text) (anchor : Nat) (declaration : List Text) : Option Step :=
  (minus? anchor 1).map fun before =>
    let block := Text.block (Text.lineBreak doc) (Text.lineIndent doc before) declaration
    .insert { offset := anchor, text := block } []

/-- The decision about an import, by offsets. -/
def mergeImportByOffsets? (doc : Text) (anchors : Anchors) (route : Route) : Option Step :=
  if declares doc (importLines route) then some .keep
  else
    match anchors.importEnd with
    | none => some .refuse
    | some anchor => insertBelow? doc anchor (importLines route)

/-- The decision about a pair of constants, by offsets. -/
def mergeConstantsByOffsets? (doc : Text) (anchors : Anchors) (route : Route) : Option Step :=
  if declares doc (constantLines route) then some .keep
  else
    match anchors.containerOpen, anchors.constantEnd with
    | some _, some anchor => insertBelow? doc anchor (constantLines route)
    | _, _ => some .refuse

/-- The start of the layout that ends at an offset, but not before `start`. Every byte that is
looked at has to be there. -/
def backOver? (doc : Text) (start : Nat) : Nat → Option Nat
  | 0 => some 0
  | n + 1 =>
    if start < n + 1 then
      (doc[n]?).bind fun b => if isLayout b then backOver? doc start n else some (n + 1)
    else some (n + 1)

/-- The comma that the last element of a list lacks, if there is an element. -/
def commaBehind? (doc : Text) (bracket last : Nat) : Option (Option Insertion) :=
  if last = bracket then some none
  else
    (doc[last]?).map fun b =>
      if b = byte ',' then none else some { offset := last + 1, text := lit "," }

/-- The insertions that append an entry to the list whose token starts at `listOpen`, by offsets. -/
def appendEntryByOffsets? (spec : AnchorSpec) (doc : Text) (listOpen closer : Nat) (route : Route) :
    Option Step := do
  let bracket ← minus? (spec.listStart listOpen) 1
  let last := Dart.lastSignificant doc bracket closer
  let tail ← backOver? doc (bracket + 1) closer
  let comma ← commaBehind? doc bracket last
  let indent := Text.lineIndent doc last ++ (if last = bracket then lit "  " else [])
  let between ← substring? doc (some tail) (← minus? closer tail)
  let closing :=
    if between.contains newline then [] else Text.lineBreak doc ++ Text.lineIndent doc closer
  let entry : Insertion :=
    { offset := tail
      text := Text.block (Text.lineBreak doc) indent (entryLines spec route) ++ closing }
  match comma with
  | none => some (.insert entry [])
  | some comma => some (.insert comma [entry])

/-- The decision about an entry, by offsets. -/
def mergeEntryByOffsets? (spec : AnchorSpec) (doc : Text) (anchors : Anchors) (route : Route) :
    Option Step :=
  if declares doc (entryLines spec route) then some .keep
  else
    match anchors.listOpen, anchors.listClose with
    | some listOpen, some closer => appendEntryByOffsets? spec doc listOpen closer route
    | _, _ => some .refuse

/-! ## Places of a document -/

/-- Anchors that lie within a document. The end of the imports and that of the constants stand
behind a semicolon, the constants in the braces of their class, and the closer of the list behind a
token that has bytes. -/
structure Anchors.Placed (spec : AnchorSpec) (doc : Text) (anchors : Anchors) : Prop where
  importEnd : ∀ e, anchors.importEnd = some e →
    1 ≤ e ∧ e ≤ doc.length ∧ doc[e - 1]? = some (byte ';')
  constantEnd : ∀ c, anchors.constantEnd = some c →
    1 ≤ c ∧ c ≤ doc.length ∧ doc[c - 1]? = some (byte ';') ∧
      ∃ start closer, anchors.containerOpen = some start ∧
        Dart.matchingBracket doc (start + spec.signature.length - 1) = some closer ∧
        start + spec.signature.length ≤ c ∧ c ≤ closer
  listClose : ∀ closer, anchors.listClose = some closer →
    ∃ start, anchors.listOpen = some start ∧ spec.listToken ≠ [] ∧
      Dart.matchingBracket doc (spec.listStart start - 1) = some closer ∧
      spec.listStart start - 1 < closer ∧ closer < doc.length

section Scan

variable {spec : AnchorSpec} {doc : Text}

/-- A stretch that ends with a byte has it in front of its end. -/
theorem getElem?_of_ends {a m r : Text} {b : Byte} (h : ∃ init, m = init ++ [b]) :
    1 ≤ (a ++ m).length ∧ (a ++ m).length ≤ (a ++ m ++ r).length ∧
      (a ++ m ++ r)[(a ++ m).length - 1]? = some b := by
  obtain ⟨init, rfl⟩ := h
  rw [← List.append_assoc]
  refine ⟨?_, by simp, by simp⟩
  rw [List.length_append, List.length_singleton]
  exact Nat.le_add_left 1 _

/-- The last name constant stands between the braces of its class. -/
theorem constantEnd?_bounds {c : Nat} (h : spec.constantEnd? doc = some c) :
    ∃ start closer, spec.containerOpen? doc = some start ∧
      Dart.matchingBracket doc (start + spec.signature.length - 1) = some closer ∧
      start + spec.signature.length ≤ c ∧ c ≤ closer := by
  obtain ⟨⟨opener, closer⟩, hbraces, -⟩ := Option.bind_eq_some_iff.mp h
  obtain ⟨start, hstart, -, hopener, hmatch⟩ := exists_of_containerBraces_eq hbraces
  obtain ⟨u, body, v, rfl, hu, rfl, hend⟩ := exists_of_containerBraces? hbraces
  rw [h] at hend
  obtain ⟨e, he, rfl⟩ := Option.map_eq_some_iff.mp hend.symm
  obtain ⟨a, m, r, rfl, -, -, rfl, -⟩ := exists_of_nameConstantEnd? he
  rw [← Nat.add_sub_cancel (n := opener) (m := 1), hopener] at hmatch
  refine ⟨start, _, hstart, hmatch, by omega, ?_⟩
  simp only [List.length_append]
  omega

/-- The places that a scan finds lie within the document. -/
theorem scan_placed (spec : AnchorSpec) (doc : Text) : (spec.scan doc).Placed spec doc where
  importEnd := by
    intro e he
    obtain ⟨a, m, r, hdoc, -, -, hm, rfl, -⟩ := importEnd?_eq_some_iff.mp he
    rw [hdoc, ← List.append_assoc]
    exact getElem?_of_ends (exists_append_of_isImport hm)
  constantEnd := by
    intro c hc
    obtain ⟨a, m, r, hdoc, hend, -, hm⟩ := exists_of_constantEnd? hc
    have hbounds := getElem?_of_ends (a := a) (r := r) (exists_append_of_isNameConstant hm)
    rw [← hdoc, ← hend] at hbounds
    exact ⟨hbounds.1, hbounds.2.1, hbounds.2.2, constantEnd?_bounds hc⟩
  listClose := by
    intro closer hclose
    obtain ⟨start, hstart, hcloser⟩ := Option.bind_eq_some_iff.mp hclose
    obtain ⟨opener, hopener, hmatch⟩ := exists_of_listClose? hcloser
    have hbounds := Dart.matchingBracket_bounds hmatch
    refine ⟨start, hstart, ?_, ?_, ?_, hbounds.2⟩
    · intro hnil
      have hzero : start = 0 := by
        have hindex : Text.indexOf? [] doc = some start := hnil ▸ hstart
        cases doc <;> simp_all [Text.indexOf?]
      rw [AnchorSpec.listStart, hnil, hzero] at hopener
      simp at hopener
    · rw [hopener, Nat.add_sub_cancel, hmatch]
    · omega

end Scan

/-! ## No check fails -/

section Merges

variable {spec : AnchorSpec} {doc : Text} {route : Route}

/-- Statements are inserted by offsets as they are below an anchor that does not start the
document. -/
theorem insertBelow?_eq {anchor : Nat} (h : 1 ≤ anchor) (declaration : List Text) :
    insertBelow? doc anchor declaration =
      some (.insert (blockBelow doc anchor declaration) []) := by
  rw [insertBelow?, minus?, if_pos h]
  rfl

/-- The import is decided by offsets as it is by classes of bytes. -/
theorem mergeImportByOffsets?_eq (spec : AnchorSpec) (doc : Text) (route : Route) :
    mergeImportByOffsets? doc (spec.scan doc) route =
      some (mergeImport doc (spec.scan doc) route) := by
  rw [mergeImportByOffsets?, mergeImport]
  split
  · rfl
  cases hanchor : (spec.scan doc).importEnd with
  | none => rfl
  | some anchor => exact insertBelow?_eq ((scan_placed spec doc).importEnd anchor hanchor).1 _

/-- The constants are decided by offsets as they are by classes of bytes. -/
theorem mergeConstantsByOffsets?_eq (spec : AnchorSpec) (doc : Text) (route : Route) :
    mergeConstantsByOffsets? doc (spec.scan doc) route =
      some (mergeConstants doc (spec.scan doc) route) := by
  rw [mergeConstantsByOffsets?, mergeConstants]
  split
  · rfl
  cases (spec.scan doc).containerOpen with
  | none => rfl
  | some start =>
    cases hanchor : (spec.scan doc).constantEnd with
    | none => rfl
    | some anchor => exact insertBelow?_eq ((scan_placed spec doc).constantEnd anchor hanchor).1 _

/-- The layout in front of a closer is stepped over one byte at a time. -/
theorem contentEnd_succ {start n : Nat} {b : Byte} (hstart : start ≤ n) (hb : doc[n]? = some b) :
    contentEnd doc start (n + 1) = if isLayout b then contentEnd doc start n else n + 1 := by
  have hlt := (List.getElem?_eq_some_iff.mp hb).1
  have htake : doc.take (n + 1) = doc.take n ++ [b] := by
    rw [List.take_add_one, hb, Option.toList_some]
  have hlength : start ≤ (doc.take n).length := by
    rw [List.length_take]
    omega
  rw [contentEnd, contentEnd, htake, List.drop_append_of_le_length hlength, List.reverse_append,
    List.reverse_singleton, List.singleton_append, List.takeWhile_cons]
  split
  · rw [List.length_cons]
    omega
  · rfl

/-- A list whose closer does not stand behind its opener ends at the closer. -/
theorem contentEnd_of_le {start closer : Nat} (h : closer ≤ start) :
    contentEnd doc start closer = closer := by
  have hnil : (doc.take closer).drop start = [] := by
    rw [List.drop_eq_nil_iff, List.length_take]
    omega
  rw [contentEnd, hnil]
  rfl

/-- The end of a list's content is found by offsets as it is by classes of bytes. -/
theorem backOver?_eq (doc : Text) (start : Nat) {closer : Nat} (h : closer ≤ doc.length) :
    backOver? doc start closer = some (contentEnd doc start closer) := by
  induction closer with
  | zero => rw [backOver?, contentEnd_of_le (Nat.zero_le start)]
  | succ n ih =>
    rw [backOver?]
    split
    · rename_i hlt
      have hb : doc[n]? = some doc[n] := List.getElem?_eq_getElem (by omega)
      rw [hb, Option.bind_some, contentEnd_succ (by omega) hb, ih (by omega)]
      split <;> rfl
    · rename_i hle
      rw [contentEnd_of_le (by omega)]

/-- An entry is appended by offsets as it is by classes of bytes. Each offset is taken as it stands
behind one that was checked; the two ways differ in the comma alone. -/
theorem appendEntryByOffsets?_eq {start closer : Nat} (h : spec.listClose? doc start = some closer)
    (route : Route) : appendEntryByOffsets? spec doc start closer route =
      some (appendEntry spec doc (spec.listStart start) closer route) := by
  have hlastCode := lastCode?_lt_of_listClose? h
  obtain ⟨opener, hopener, hmatch⟩ := exists_of_listClose? h
  rw [hopener] at hlastCode
  have hbounds := Dart.matchingBracket_bounds hmatch
  obtain ⟨tail, htail⟩ : ∃ tail, contentEnd doc (opener + 1) closer = tail := ⟨_, rfl⟩
  have hle : tail ≤ closer := htail ▸ (contentEnd_bounds doc hbounds.1).2
  have hback : backOver? doc (opener + 1) closer = some tail :=
    htail ▸ backOver?_eq doc (opener + 1) hbounds.2.le
  have hcut : substring? doc (some tail) (closer - tail) = some ((doc.take closer).drop tail) := by
    rw [substring?, Option.bind_some, if_pos (hle.trans hbounds.2.le), List.drop_take]
  have hbefore : beforeContent doc (opener + 1) = opener := by simp [beforeContent]
  have hbracket : minus? (opener + 1) 1 = some opener := minus?_eq_of_add rfl
  have hcount : minus? closer tail = some (closer - tail) := if_pos hle
  cases hlast : Dart.lastCode? doc (opener + 1) closer with
  | none =>
    have hcomma : commaBehind? doc opener opener = some none := if_pos rfl
    simp only [appendEntryByOffsets?, appendEntry, hopener, hbracket, hback, hcount, hcut, htail,
      hbefore, Dart.lastSignificant, hlast, Option.getD_none, hcomma, Option.bind_eq_bind,
      Option.bind_some, if_true]
  | some last =>
    have hne : last ≠ opener := by
      have hstart := (Dart.lastCode?_bounds hlast).1
      omega
    obtain ⟨-, b, hb, -⟩ := hlastCode last hlast
    have hcomma : commaBehind? doc opener last =
        some (if b = byte ',' then none else some { offset := last + 1, text := lit "," }) := by
      rw [commaBehind?, if_neg hne, hb, Option.map_some]
    simp only [appendEntryByOffsets?, appendEntry, hopener, hbracket, hback, hcount, hcut, htail,
      Dart.lastSignificant, hlast, Option.getD_some, hcomma, Option.bind_eq_bind, Option.bind_some,
      if_neg hne, List.append_nil, hb, Option.some.injEq]
    by_cases hpresent : b = byte ','
    · simp only [hpresent, if_true]
    · simp only [hpresent, if_false]

/-- The entry is decided by offsets as it is by classes of bytes. -/
theorem mergeEntryByOffsets?_eq (spec : AnchorSpec) (doc : Text) (route : Route) :
    mergeEntryByOffsets? spec doc (spec.scan doc) route =
      some (mergeEntry spec doc (spec.scan doc) route) := by
  rw [mergeEntryByOffsets?, mergeEntry]
  split
  · rfl
  cases hopen : (spec.scan doc).listOpen with
  | none => rfl
  | some start =>
    cases hclose : (spec.scan doc).listClose with
    | none => rfl
    | some closer =>
      have hbind : (spec.scan doc).listClose =
        (spec.scan doc).listOpen.bind (spec.listClose? doc) := rfl
      rw [hopen, hclose] at hbind
      exact appendEntryByOffsets?_eq hbind.symm route

end Merges

/-! ## Where decisions insert -/

/-- A decision that can be carried out on a document: it inserts something exactly when it says so,
and then texts with bytes, none of them past the end. -/
structure Step.Placed (doc : Text) (step : Step) : Prop where
  ne_nil_iff : step.insertions ≠ [] ↔ step.status = .inserted
  offset_le : ∀ i ∈ step.insertions, i.offset ≤ doc.length
  text_ne_nil : ∀ i ∈ step.insertions, i.text ≠ []

/-- Insertions that write an entry within its list: behind the last byte of code, perhaps with a
comma right behind that byte, and not behind the closer. -/
def EntersList (spec : AnchorSpec) (doc : Text) (anchors : Anchors) (route : Route)
    (insertions : List Insertion) : Prop :=
  ∃ start closer, anchors.listOpen = some start ∧ anchors.listClose = some closer ∧
    let last := Dart.lastSignificant doc (spec.listStart start - 1) closer
    let tail := contentEnd doc (spec.listStart start) closer
    let entry := entryInsertion spec doc (spec.listStart start) closer route
    last + 1 ≤ tail ∧ tail ≤ closer ∧ entry.offset = tail ∧
      (insertions = [entry] ∨ insertions = [{ offset := last + 1, text := [byte ','] }, entry])

section Insertions

variable {spec : AnchorSpec} {doc : Text} {route : Route}

theorem Written.text_ne_nil {part : Part} {text : Text} (h : Written spec route doc part text) :
    text ≠ [] := by
  have hbreak : Text.lineBreak doc ≠ [] := by
    rcases Text.isLineBreak_lineBreak doc with h | h <;> simp [h, Text.crlf]
  cases h <;> simp [importLines, constantLines, entryLines, hbreak]

/-- A step that writes a block puts everything inside the document, and the comma in front of the
block. -/
theorem WritesBlock.placed {parts : List Part} {edits : List (Part × Insertion)} {step : Step}
    (h : WritesBlock spec route doc parts edits step.insertions) : step.Placed doc where
  ne_nil_iff := step.insertions_ne_nil_iff
  offset_le := h.offset_le_of_mem
  text_ne_nil := by
    rw [← h.map_snd]
    exact List.forall_mem_map.mpr fun edit hedit => (h.written edit hedit).text_ne_nil

/-- An entry is inserted within its list, and the comma that it brings in front of it. -/
theorem entersList_mergeEntry (h : (mergeEntry spec doc (spec.scan doc) route).insertions ≠ []) :
    EntersList spec doc (spec.scan doc) route
      (mergeEntry spec doc (spec.scan doc) route).insertions := by
  obtain ⟨start, closer, hopen, hclose, heq⟩ := exists_of_mergeEntry h
  obtain ⟨opener, hopener, hmatch⟩ := exists_of_listClose? hclose
  obtain ⟨hstart, hcloser⟩ := listStart_le_of_listClose? hclose
  have htail := contentEnd_bounds doc hstart
  have hscan : (spec.scan doc).listClose = some closer := by
    rw [AnchorSpec.scan, hopen, Option.bind_some, hclose]
  refine ⟨start, closer, hopen, hscan, ?_, htail.2, rfl, ?_⟩
  · rw [Dart.lastSignificant, Nat.sub_add_cancel (by omega)]
    cases hlast : Dart.lastCode? doc (spec.listStart start) closer with
    | none =>
      rw [Option.getD_none]
      omega
    | some last =>
      obtain ⟨hlt, b, hb, hbare⟩ := lastCode?_lt_of_listClose? hclose last hlast
      exact lt_contentEnd hstart hcloser.le hlt hb hbare
  · rw [heq]
    rcases appendEntry_insertions spec doc (spec.listStart start) closer with
      ⟨-, hone⟩ | ⟨last, hlast, -, htwo⟩
    · exact Or.inl (hone route)
    · refine Or.inr ?_
      rw [Dart.lastSignificant, Nat.sub_add_cancel (by omega), hlast]
      exact htwo route

end Insertions

/-- Merges on the places that a scan finds stay within the document. No difference of offsets is
below zero, no byte that is looked at is missing, each decision inserts something exactly when it
says so, and an entry stands within its list, behind the comma that it brings. -/
theorem merges_well_placed (spec : AnchorSpec) (doc : Text) (route : Route) :
    let anchors := spec.scan doc
    anchors.Placed spec doc ∧
      (mergeImportByOffsets? doc anchors route = some (mergeImport doc anchors route) ∧
        mergeConstantsByOffsets? doc anchors route = some (mergeConstants doc anchors route) ∧
        mergeEntryByOffsets? spec doc anchors route = some (mergeEntry spec doc anchors route)) ∧
      (∀ step ∈ [mergeImport doc anchors route, mergeConstants doc anchors route,
        mergeEntry spec doc anchors route], step.Placed doc) ∧
      ((mergeEntry spec doc anchors route).insertions = [] ∨
        EntersList spec doc anchors route (mergeEntry spec doc anchors route).insertions) := by
  intro anchors
  obtain ⟨_, himport⟩ := exists_writesBlock_mergeImport spec route doc
  obtain ⟨_, hconstants⟩ := exists_writesBlock_mergeConstants spec route doc
  obtain ⟨_, hentry⟩ := exists_writesBlock_mergeEntry spec route doc
  refine ⟨scan_placed spec doc, ⟨mergeImportByOffsets?_eq spec doc route,
    mergeConstantsByOffsets?_eq spec doc route, mergeEntryByOffsets?_eq spec doc route⟩, ?_,
    or_iff_not_imp_left.mpr entersList_mergeEntry⟩
  intro step hstep
  simp only [List.mem_cons, List.not_mem_nil, or_false] at hstep
  rcases hstep with rfl | rfl | rfl
  · exact himport.placed
  · exact hconstants.placed
  · exact hentry.placed

end FlutterScaffold.Registry
