import FlutterScaffold.Proofs.Dart.Regions
import FlutterScaffold.Proofs.Registry.Elements
import FlutterScaffold.Proofs.Registry.Growth

/-!
# The regions of a registry

Anchors are found by the pattern of a line and by the first occurrence of a token, wherever these
stand. Where the anchors that a patch uses are code, what it inserts starts in code, and every byte
of the document that is not blank stays code, comment or literal as it was
(`patch_respects_regions`). A registry that is commented out is patched within its comment
(`patch_commented_out`).
-/

namespace FlutterScaffold.Registry

open FlutterScaffold.Dart (Neutral Respects RespectAll regionAt?)
open FlutterScaffold.Dart.Reader (isSilent)
open FlutterScaffold.Text (block splice IsLineBreak)
open Byte (isBlank isLayout)

/-! ## Statements behind a semicolon -/

/-- Lines of code that start with a word and end with a semicolon. -/
structure IsStatements (content : List Text) : Prop where
  neutral : ∀ l ∈ content, Neutral l
  starts : ∃ x line more, content = (x :: line) :: more ∧ Byte.isSpace x = false ∧
    isSilent x = true ∧ x ≠ byte 'r'
  ends : ∃ init l, content = init ++ [l ++ [byte ';']]

/-- An import is a statement of one line. -/
theorem isStatements_importLines {route : Route}
    (hpath : ∀ b ∈ route.importPath, Route.isPlainByte b) : IsStatements (importLines route) where
  neutral := neutral_importLines hpath
  starts := ⟨_, _, _, rfl, by decide, by decide, by decide⟩
  ends := ⟨[], _, rfl⟩

/-- The constants of a route are statements. -/
theorem isStatements_constantLines {route : Route} (hr : route.Regular) :
    IsStatements (constantLines route) where
  neutral := neutral_constantLines hr
  starts := ⟨_, _, _, rfl, by decide, by decide, by decide⟩
  ends := ⟨[_], _, rfl⟩

section Statements

variable {doc nl indent : Text} {content : List Text} {l : List Insertion} {p : Nat}

/-- Statements on lines of their own respect the regions behind a semicolon of code. -/
theorem IsStatements.respects (h : IsStatements content) (hget : doc[p]? = some (byte ';'))
    (hcode : regionAt? doc p = some .code) (hnl : IsLineBreak nl)
    (hindent : ∀ b ∈ indent, isBlank b) : Respects ⟨p + 1, block nl indent content⟩ doc := by
  obtain ⟨hlt, hp⟩ := List.getElem?_eq_some_iff.mp hget
  obtain ⟨a, b, rfl, rfl⟩ : ∃ a b, doc = a ++ byte ';' :: b ∧ a.length = p :=
    ⟨doc.take p, doc.drop (p + 1), by rw [← hp, ← List.drop_eq_getElem_cons, List.take_append_drop],
      List.length_take_of_le hlt.le⟩
  obtain ⟨x, line, more, rfl, hx⟩ := h.starts
  obtain ⟨init, last, hends⟩ := h.ends
  have hblock : block nl indent ((x :: line) :: more) =
      nl ++ indent ++ x :: (line ++ block nl indent more) := by simp
  have hlast : block nl indent ((x :: line) :: more) =
      block nl indent init ++ (nl ++ indent ++ last) ++ [byte ';'] := by
    rw [hends, Text.block_append]
    simp
  have hblanks : ∀ b ∈ nl ++ indent, isLayout b = true := List.forall_mem_append.mpr
    ⟨Dart.Reader.isLayout_of_isLineBreak hnl, fun b hb => Byte.isLayout_of_isBlank b (hindent b hb)⟩
  have hinert : Dart.Inert (nl ++ indent ++ x :: (line ++ block nl indent more) ++ b) := by
    simpa using Dart.Reader.inert_lineBreak hnl _
  have hstart : ({} : Dart.Reader).run b (a ++ [byte ';']) = some {} :=
    Dart.run_of_regionAt?_code hcode
  obtain ⟨t, ht, hrest⟩ := (neutral_block hnl hindent h.neutral).run b
  have hname : t.afterName = false := Dart.Reader.afterName_run (hlast ▸ ht)
  obtain ⟨r, hr, hrrest⟩ := Dart.Reader.exists_run_layout (s := {}) rfl hblanks
    (x :: (line ++ block nl indent more) ++ b)
  have hinsert := Dart.respects_of_run hstart rfl hinert
    (fun c hc => Byte.isSpace_of_isLayout c (hblanks c hc)) hx hr hrrest (hblock ▸ ht)
    (Dart.Reader.alike_of_atRest rfl hrest (Or.inl hname))
  rwa [← hblock, List.length_append, List.append_assoc] at hinsert

/-- Statements can be inserted in front of what was inserted behind a semicolon of code. -/
theorem IsStatements.respectAll (h : IsStatements content)
    (hl : RespectAll doc (Insertion.pushAll l)) (hget : doc[p]? = some (byte ';'))
    (hcode : regionAt? doc p = some .code) (hnl : IsLineBreak nl)
    (hindent : ∀ b ∈ indent, isBlank b) :
    RespectAll doc (Insertion.pushAll (⟨p + 1, block nl indent content⟩ :: l)) := by
  obtain ⟨hget', hcode'⟩ := hl.keeps hget (by decide)
  have hoffset := Insertion.offset_pushed ⟨p + 1, block nl indent content⟩ l rfl
  have hpushed : Insertion.pushed ⟨p + 1, block nl indent content⟩ l =
      ⟨Insertion.place (Insertion.pushAll l) p + 1, block nl indent content⟩ := by
    rw [← hoffset]
    rfl
  rw [Insertion.pushAll, hpushed]
  exact hl.cons (h.respects hget' (hcode'.trans hcode) hnl hindent)

end Statements

/-! ## The merges -/

/-- Whether an anchor, if there is one, ends with a byte of code. -/
def EndsInCode (doc : Text) (anchor : Option Nat) : Prop :=
  ∀ e ∈ anchor, regionAt? doc (e - 1) = some .code

instance (doc : Text) (anchor : Option Nat) : Decidable (EndsInCode doc anchor) :=
  inferInstanceAs (Decidable (∀ e ∈ anchor, regionAt? doc (e - 1) = some .code))

section Merges

variable {spec : AnchorSpec} {route : Route} {doc : Text} {l : List Insertion}

/-- Statements below an anchor that ends with a semicolon of code. -/
private theorem respectAll_blockBelow {a v b : Text} {content : List Text}
    (hcontent : IsStatements content) (hl : RespectAll doc (Insertion.pushAll l))
    (hdoc : doc = a ++ (v ++ [byte ';']) ++ b)
    (hcode : EndsInCode doc (some (a ++ (v ++ [byte ';'])).length)) :
    RespectAll doc
      (Insertion.pushAll (blockBelow doc (a ++ (v ++ [byte ';'])).length content :: l)) := by
  have hlength : (a ++ (v ++ [byte ';'])).length = (a ++ v).length + 1 := by
    rw [← List.append_assoc, List.length_append, List.length_singleton]
  have hget : doc[(a ++ v).length]? = some (byte ';') := by
    rw [hdoc, ← List.append_assoc a, List.append_assoc (a ++ v), List.getElem?_append_right le_rfl,
      Nat.sub_self]
    rfl
  have hregion := hcode _ rfl
  rw [hlength] at hregion ⊢
  exact hcontent.respectAll hl hget hregion (Text.isLineBreak_lineBreak doc)
    fun x => Text.isBlank_of_mem_lineIndent

/-- An import is inserted behind a semicolon of code. -/
theorem respectAll_mergeImport (hpath : ∀ b ∈ route.importPath, Route.isPlainByte b)
    (hl : RespectAll doc (Insertion.pushAll l))
    (hcode : (mergeImport doc (spec.scan doc) route).status = .inserted →
      EndsInCode doc (importEnd? doc)) :
    RespectAll doc
      (Insertion.pushAll ((mergeImport doc (spec.scan doc) route).insertions ++ l)) := by
  by_cases hnil : (mergeImport doc (spec.scan doc) route).insertions = []
  · rwa [hnil]
  · have hanchor := hcode ((Step.insertions_ne_nil_iff _).mp hnil)
    obtain ⟨e, he, heq⟩ := mergeImport_eq_insert hnil
    rw [he] at hanchor
    obtain ⟨a, m, b, hdoc, rfl, -, hm⟩ := exists_of_importEnd? he
    obtain ⟨v, rfl⟩ := exists_append_of_isImport hm
    rw [heq]
    exact respectAll_blockBelow (isStatements_importLines hpath) hl hdoc hanchor

/-- A pair of constants is inserted behind a semicolon of code. -/
theorem respectAll_mergeConstants (hr : route.Regular) (hl : RespectAll doc (Insertion.pushAll l))
    (hcode : (mergeConstants doc (spec.scan doc) route).status = .inserted →
      EndsInCode doc (spec.constantEnd? doc)) :
    RespectAll doc
      (Insertion.pushAll ((mergeConstants doc (spec.scan doc) route).insertions ++ l)) := by
  by_cases hnil : (mergeConstants doc (spec.scan doc) route).insertions = []
  · rwa [hnil]
  · have hanchor := hcode ((Step.insertions_ne_nil_iff _).mp hnil)
    obtain ⟨c, hc, heq⟩ := mergeConstants_eq_insert hnil
    rw [hc] at hanchor
    obtain ⟨a, m, b, hdoc, rfl, -, hm⟩ := exists_of_constantEnd? hc
    obtain ⟨v, rfl⟩ := exists_append_of_isNameConstant hm
    rw [heq]
    exact respectAll_blockBelow (isStatements_constantLines hr) hl hdoc hanchor

/-- An entry starts with a word. -/
theorem exists_entryCode (nl indent : Text) (spec : AnchorSpec) (route : Route) :
    ∃ w, entryCode nl indent spec route = indent ++ byte 'G' :: w := by
  have hword : lit "GoRoute" = byte 'G' :: lit "oRoute" := by decide
  rw [entryCode, hword]
  exact ⟨_, by simp only [List.append_assoc, List.cons_append]; rfl⟩

/-- An entry respects the regions around a list whose bracket is code. No byte of the entry starts a
comment or a literal, so it is code throughout. -/
theorem EntrySite.respectAll {opener closer : Nat} (site : EntrySite doc (opener + 1) closer)
    (h : Dart.matchingBracket doc opener = some closer) (hcode : regionAt? doc opener = some .code)
    (hr : route.Regular) (hclass : ∀ b ∈ spec.routerClass, Byte.isIdentifier b) :
    RespectAll doc (site.insertions spec route) := by
  obtain ⟨before, b, c, a, rfl, hb, hsite, -, hcontents⟩ := site.exists_contents h
  have hdoc : doc = before ++ [b] ++ a ++ site.content ++ (site.layout ++ site.rest) :=
    site.eq_append.trans (by simp [hsite])
  have hstart : ({} : Dart.Reader).run (a ++ (site.content ++ site.layout) ++ site.rest)
      (before ++ [b]) = some {} := by
    have hbracket : regionAt? (before ++ b :: (a ++ (site.content ++ site.layout) ++ site.rest))
        before.length = some .code := by
      rw [hdoc] at hcode
      simpa using hcode
    have hrun := Dart.run_of_regionAt?_code hbracket
    rwa [Dart.not_isIdentifier_of_closerOf? hb] at hrun
  have hnl := Text.isLineBreak_lineBreak doc
  have hsilent : ∀ b ∈ entryCode (Text.lineBreak doc) site.indent spec route, isSilent b = true :=
    forall_mem_entryCode hr hclass hnl site.isBlank_of_mem isSilent_of_isLayout
      isSilent_of_isIdentifier (List.all_eq_true.mp rfl)
  obtain ⟨w, hw⟩ := exists_entryCode (Text.lineBreak doc) site.indent spec route
  have htext : block (Text.lineBreak doc) site.indent (entryLines spec route) ++ site.closing =
      Text.lineBreak doc ++ site.indent ++ byte 'G' :: (w ++ byte ',' :: site.closing) := by
    rw [block_entryLines, hw]
    simp
  have hclosing : ∀ b ∈ site.closing, isLayout b = true := fun b hb =>
    site.isLayout_of_mem_closing b (List.mem_append_left _ hb)
  have hbytes : ∀ b ∈ w ++ byte ',' :: site.closing, isSilent b = true := by
    rw [hw] at hsilent
    refine List.forall_mem_append.mpr ⟨fun b hb => hsilent b (by simp [hb]),
      List.forall_mem_cons.mpr ⟨by decide, fun b hb => isSilent_of_isLayout b (hclosing b hb)⟩⟩
  have hlast : (byte 'G' :: (w ++ byte ',' :: site.closing)).getLast? ≠ some (byte 'r') := by
    intro hr
    rw [← List.cons_append, List.getLast?_append_of_ne_nil _ (by simp)] at hr
    rcases List.mem_cons.mp (List.mem_of_getLast? hr) with hr | hr
    · exact absurd hr (by decide)
    · exact absurd (hclosing _ hr) (by decide)
  have hrespect := hcontents.respectAll hstart hnl
    (fun b hb => Byte.isLayout_of_isBlank b (site.isBlank_of_mem b hb)) (by decide) hbytes hlast
  rw [← hdoc] at hrespect
  rw [EntrySite.insertions, htext, hsite]
  simpa using hrespect

/-- An entry, and the comma in front of it where one is lacking, are inserted into a list whose
bracket is code. -/
theorem respectAll_mergeEntry (hs : spec.Accepted) (hr : route.Regular)
    (hcode : (mergeEntry spec doc (spec.scan doc) route).status = .inserted →
      EndsInCode doc ((spec.listOpen? doc).map spec.listStart)) :
    RespectAll doc (mergeEntry spec doc (spec.scan doc) route).insertions := by
  by_cases hnil : (mergeEntry spec doc (spec.scan doc) route).insertions = []
  · rw [hnil]
    exact .nil
  · have hanchor := hcode ((Step.insertions_ne_nil_iff _).mp hnil)
    obtain ⟨o, closer, hopen, hclose, heq⟩ := exists_of_mergeEntry hnil
    obtain ⟨opener, hopener, hmatch⟩ := exists_of_listClose? hclose
    obtain ⟨site, -⟩ := exists_site spec (listStart_le_of_listClose? hclose).1
      (listStart_le_of_listClose? hclose).2.le (lastCode?_lt_of_listClose? hclose)
    have hbracket := hanchor (spec.listStart o) (by rw [hopen]; rfl)
    rw [heq, site.appendEntry_insertions]
    generalize spec.listStart o = start at *
    subst hopener
    exact site.respectAll hmatch hbracket hr (isIdentifier_of_mem hs.routerClass)

end Merges

/-! ## Whole patches -/

/-- The text in which a policy looks for the anchor of the constants. -/
def Policy.imported (policy : Policy) (spec : AnchorSpec) (doc : Text) (route : Route) : Text :=
  policy.base doc (splice doc (mergeImport doc (spec.scan doc) route).insertions)

/-- The text in which a policy looks for the list. -/
def Policy.declared (policy : Policy) (spec : AnchorSpec) (doc : Text) (route : Route) : Text :=
  let imported := policy.imported spec doc route
  policy.base doc (splice imported (mergeConstants imported (spec.scan imported) route).insertions)

/-- The anchors at which a patch inserts are code, each in the text in which it is looked for: the
semicolon of the last import, that of the last name constant, and the bracket of the list. -/
structure AnchoredInCode (spec : AnchorSpec) (policy : Policy) (route : Route) (doc : Text) :
    Prop where
  imports : (patch spec policy doc route).importStatus = some .inserted →
    EndsInCode doc (importEnd? doc)
  constants : (patch spec policy doc route).constantsStatus = some .inserted →
    EndsInCode (policy.imported spec doc route) (spec.constantEnd? (policy.imported spec doc route))
  entry : (patch spec policy doc route).entryStatus = some .inserted →
    EndsInCode (policy.declared spec doc route)
      ((spec.listOpen? (policy.declared spec doc route)).map spec.listStart)

section Patches

variable {spec : AnchorSpec} {route : Route} {doc start current : Text} {parts : List Part}
  {edits earlier : List (Part × Insertion)} {l : List Insertion}

/-- A grown text is the document with the insertions made one after another, the first of the list
last. -/
theorem Grown.eq_foldr {policy : Policy} (h : Grown spec policy route doc edits current) :
    current = (edits.map Prod.snd).foldr Insertion.into doc := by
  induction h with
  | nil => rfl
  | cons _ _ _ ih => rw [List.map_cons, List.foldr_cons, ← ih]

/-- Edits that respect the regions of a document can be made to it. -/
theorem grown_of_respectAll (h : RespectAll doc (edits.map Prod.snd))
    (hwritten : ∀ edit ∈ edits, Written spec route doc edit.1 edit.2.text) :
    Grown spec .atomic route doc edits ((edits.map Prod.snd).foldr Insertion.into doc) := by
  induction edits with
  | nil => exact .nil
  | cons edit edits ih =>
    obtain ⟨hfirst, hrest⟩ := List.forall_mem_cons.mp hwritten
    cases h with
    | cons h hi => exact (ih h hrest).cons hi.offset_le hfirst

/-- Edits of a document, each seen from what the ones behind it lead to. -/
private theorem exists_pushed (edits : List (Part × Insertion)) :
    ∃ pushed : List (Part × Insertion),
      pushed.map Prod.fst = edits.map Prod.fst ∧
      pushed.map Prod.snd = Insertion.pushAll (edits.map Prod.snd) ∧
      ∀ edit ∈ pushed, ∃ edit' ∈ edits, edit'.1 = edit.1 ∧ edit'.2.text = edit.2.text := by
  induction edits with
  | nil => exact ⟨[], rfl, rfl, by simp⟩
  | cons edit edits ih =>
    obtain ⟨pushed, hparts, hinsertions, htexts⟩ := ih
    refine ⟨(edit.1, edit.2.pushed (edits.map Prod.snd)) :: pushed, by simp [hparts],
      by simp [Insertion.pushAll, hinsertions], List.forall_mem_cons.mpr
        ⟨⟨edit, List.mem_cons_self .., rfl, rfl⟩, fun edit' hmem => ?_⟩⟩
    obtain ⟨old, hold, heq⟩ := htexts edit' hmem
    exact ⟨old, List.mem_cons_of_mem _ hold, heq⟩

/-- Insertions that are decided on one document are made into it from the last to the first. -/
theorem Writes.exists_respectAll (h : Writes spec route doc parts edits l)
    (hl : RespectAll doc (Insertion.pushAll l)) : ∃ pushed : List (Part × Insertion),
      Grown spec .atomic route doc pushed (splice doc l) ∧
        pushed.map Prod.fst = edits.map Prod.fst ∧ RespectAll doc (pushed.map Prod.snd) := by
  obtain ⟨pushed, hparts, hinsertions, htexts⟩ := exists_pushed edits
  rw [h.map_snd] at hinsertions
  have hrespect : RespectAll doc (pushed.map Prod.snd) := hinsertions ▸ hl
  refine ⟨pushed, ?_, hparts, hrespect⟩
  rw [Text.splice_eq_foldr_pushAll h.offset_le_of_mem, ← hinsertions]
  refine grown_of_respectAll hrespect fun edit hmem => ?_
  obtain ⟨old, hold, hpart, htext⟩ := htexts edit hmem
  rw [← hpart, ← htext]
  exact h.written old hold

/-- The insertions of a decision follow those that led to the text that it was taken on. -/
theorem WritesBlock.grown_respectAll (h : WritesBlock spec route doc parts edits l)
    (hl : RespectAll doc (Insertion.pushAll l))
    (hgrown : Grown spec .bestEffort route start earlier doc)
    (hearlier : RespectAll start (earlier.map Prod.snd)) :
    Grown spec .bestEffort route start (edits ++ earlier) (splice doc l) ∧
      RespectAll start ((edits ++ earlier).map Prod.snd) := by
  refine ⟨h.grown hgrown, ?_⟩
  rw [List.map_append, h.map_snd]
  refine hearlier.append ?_
  rwa [← hgrown.eq_foldr, ← Insertion.pushAll_eq_self h.sorted]

/-- The atomic policy reports what each merge decides about the document. -/
private theorem patchAtomic_status (spec : AnchorSpec) (route : Route) (doc : Text) :
    (patchAtomic spec doc route).importStatus =
        some (mergeImport doc (spec.scan doc) route).status ∧
      (patchAtomic spec doc route).constantsStatus =
        some (mergeConstants doc (spec.scan doc) route).status ∧
      (patchAtomic spec doc route).entryStatus =
        some (mergeEntry spec doc (spec.scan doc) route).status := by
  simp only [patchAtomic]
  split <;> exact ⟨rfl, rfl, rfl⟩

/-- The insertions of the atomic policy respect the regions of the document. -/
private theorem patchAtomic_respects (hs : spec.Accepted) (hr : route.Regular)
    (hpath : ∀ b ∈ route.importPath, Route.isPlainByte b)
    (hcode : AnchoredInCode spec .atomic route doc) : ∃ edits : List (Part × Insertion),
      Grown spec .atomic route doc edits (patchAtomic spec doc route).text ∧
        (edits.map Prod.fst).Nodup ∧ RespectAll doc (edits.map Prod.snd) := by
  rcases exists_writes_patchAtomic spec route doc with htext | ⟨edits, hall, htext⟩
  · rw [htext]
    exact ⟨[], .nil, List.nodup_nil, .nil⟩
  · obtain ⟨himport, hconstant, hlist⟩ := patchAtomic_status spec route doc
    obtain ⟨entry, hentry⟩ := exists_writesBlock_mergeEntry spec route doc
    have hentered : RespectAll doc (mergeEntry spec doc (spec.scan doc) route).insertions :=
      respectAll_mergeEntry hs hr fun h => hcode.entry (hlist.trans (congrArg some h))
    rw [← Insertion.pushAll_eq_self hentry.sorted] at hentered
    have hdeclared := respectAll_mergeConstants hr hentered
      fun h => hcode.constants (hconstant.trans (congrArg some h))
    have himported := respectAll_mergeImport hpath hdeclared
      fun h => hcode.imports (himport.trans (congrArg some h))
    rw [← List.append_assoc] at himported
    obtain ⟨pushed, hgrown, hparts, hpushed⟩ := hall.exists_respectAll himported
    rw [htext]
    exact ⟨pushed, hgrown, hparts ▸ hall.sublist.nodup (by decide), hpushed⟩

/-- The best-effort policy reports what is decided about the import. -/
private theorem patchBestEffort_importStatus (spec : AnchorSpec) (route : Route) (doc : Text) :
    (patchBestEffort spec doc route).importStatus =
      some (mergeImport doc (spec.scan doc) route).status := by
  simp only [patchBestEffort]
  split
  · rfl
  · split <;> rfl

/-- Where the import has its place, the best-effort policy reports what is decided about the
constants behind it. -/
private theorem patchBestEffort_constantsStatus {seen : Text}
    (hseen : splice doc (mergeImport doc (spec.scan doc) route).insertions = seen)
    (hi : (mergeImport doc (spec.scan doc) route).status ≠ .missing) :
    (patchBestEffort spec doc route).constantsStatus =
      some (mergeConstants seen (spec.scan seen) route).status := by
  simp only [patchBestEffort, hi, hseen, if_false]
  split <;> rfl

/-- Where both statements have their places, the best-effort policy reports what is decided about
the entry behind them. -/
private theorem patchBestEffort_entryStatus {seen done : Text}
    (hseen : splice doc (mergeImport doc (spec.scan doc) route).insertions = seen)
    (hdone : splice seen (mergeConstants seen (spec.scan seen) route).insertions = done)
    (hi : (mergeImport doc (spec.scan doc) route).status ≠ .missing)
    (hc : (mergeConstants seen (spec.scan seen) route).status ≠ .missing) :
    (patchBestEffort spec doc route).entryStatus =
      some (mergeEntry spec done (spec.scan done) route).status := by
  simp only [patchBestEffort, hi, hseen, hc, hdone, if_false]

/-- The insertions of the best-effort policy respect the regions of the document. Each merge reads
the text that the merges in front of it left, and the edits are told of the document itself. -/
private theorem patchBestEffort_respects (hs : spec.Accepted) (hr : route.Regular)
    (hpath : ∀ b ∈ route.importPath, Route.isPlainByte b)
    (hcode : AnchoredInCode spec .bestEffort route doc) : ∃ edits : List (Part × Insertion),
      Grown spec .bestEffort route doc edits (patchBestEffort spec doc route).text ∧
        (edits.map Prod.fst).Nodup ∧ RespectAll doc (edits.map Prod.snd) := by
  by_cases hi : (mergeImport doc (spec.scan doc) route).status = .missing
  · rw [(patchBestEffort_of_import_missing hi).2.1]
    exact ⟨[], .nil, List.nodup_nil, .nil⟩
  · obtain ⟨seen, hseen⟩ : ∃ seen, splice doc (mergeImport doc (spec.scan doc) route).insertions =
        seen := ⟨_, rfl⟩
    have himport := patchBestEffort_importStatus spec route doc
    obtain ⟨imports, himports⟩ := exists_writesBlock_mergeImport spec route doc
    have himported := respectAll_mergeImport (l := []) hpath .nil
      fun h => hcode.imports (himport.trans (congrArg some h))
    rw [List.append_nil] at himported
    obtain ⟨hgrown, hedits⟩ := himports.grown_respectAll himported .nil .nil
    rw [hseen] at hgrown
    by_cases hc : (mergeConstants seen (spec.scan seen) route).status = .missing
    · rw [(patchBestEffort_of_constants_missing hseen hi hc).2.1]
      refine ⟨_, hgrown, ?_, hedits⟩
      rw [List.append_nil]
      exact himports.sublist.nodup (by decide)
    · obtain ⟨done, hdone⟩ : ∃ done,
          splice seen (mergeConstants seen (spec.scan seen) route).insertions = done := ⟨_, rfl⟩
      have htextSeen : Policy.imported .bestEffort spec doc route = seen := hseen
      have htextDone : Policy.declared .bestEffort spec doc route = done := by
        rw [← hdone, ← hseen]
        rfl
      have hconstant := patchBestEffort_constantsStatus hseen hi
      have hlist := patchBestEffort_entryStatus hseen hdone hi hc
      obtain ⟨constants, hconstants⟩ := exists_writesBlock_mergeConstants spec route seen
      obtain ⟨entry, hentry⟩ := exists_writesBlock_mergeEntry spec route done
      have hdeclared := respectAll_mergeConstants (l := []) hr .nil
        fun h => htextSeen ▸ hcode.constants (hconstant.trans (congrArg some h))
      have hentered := respectAll_mergeEntry hs hr
        fun h => htextDone ▸ hcode.entry (hlist.trans (congrArg some h))
      rw [List.append_nil] at hdeclared
      rw [← Insertion.pushAll_eq_self hentry.sorted] at hentered
      obtain ⟨hgrown, hedits⟩ := hconstants.grown_respectAll hdeclared hgrown hedits
      rw [hdone] at hgrown
      obtain ⟨hgrown, hedits⟩ := hentry.grown_respectAll hentered hgrown hedits
      have hparts := hentry.sublist.append (hconstants.sublist.append himports.sublist)
      rw [(patchBestEffort_of_ne_missing hseen hdone hi hc).2.1]
      refine ⟨_, hgrown, ?_, hedits⟩
      simp only [List.map_append, List.append_nil]
      exact hparts.nodup (by decide)

end Patches

/-- Where the anchors at which a patch inserts are code, every part that it writes starts in code,
and every byte of the document that is not blank keeps its region, whatever stands around it. -/
theorem patch_respects_regions {spec : AnchorSpec} {text importPath : Text} {name : Name}
    (hs : spec.Accepted) (hname : Name.validate text = .ok name)
    (hpath : ∀ b ∈ importPath, Route.isPlainByte b) (policy : Policy) (doc : Text)
    (hcode : (patch spec policy doc (Route.ofFeature name importPath)).text ≠ doc →
      AnchoredInCode spec policy (Route.ofFeature name importPath) doc) :
    let route := Route.ofFeature name importPath
    let result := (patch spec policy doc route).text
    ∃ edits : List (Part × Insertion), Grown spec policy route doc edits result ∧
      (edits.map Prod.fst).Nodup ∧
      (∀ later edit earlier, edits = later ++ edit :: earlier →
        let start := Insertion.place (later.map Prod.snd) edit.2.start
        ∃ b, result[start]? = some b ∧ Byte.isSpace b = false ∧
          regionAt? result start = some .code) ∧
      ∀ pos b, doc[pos]? = some b → Byte.isSpace b = false →
        result[Insertion.place (edits.map Prod.snd) pos]? = some b ∧
          regionAt? result (Insertion.place (edits.map Prod.snd) pos) = regionAt? doc pos := by
  intro route result
  have hr : route.Regular := Route.regular_ofFeature hname importPath
  obtain ⟨edits, hgrown, hnodup, hrespect⟩ : ∃ edits : List (Part × Insertion),
      Grown spec policy route doc edits result ∧ (edits.map Prod.fst).Nodup ∧
        RespectAll doc (edits.map Prod.snd) := by
    by_cases htext : result = doc
    · rw [htext]
      exact ⟨[], .nil, List.nodup_nil, .nil⟩
    · cases policy with
      | atomic => exact patchAtomic_respects hs hr hpath (hcode htext)
      | bestEffort => exact patchBestEffort_respects hs hr hpath (hcode htext)
  refine ⟨edits, hgrown, hnodup, fun later edit earlier hedits => ?_, fun pos b hget hb => ?_⟩
  · rw [hgrown.eq_foldr]
    exact hrespect.starts (by rw [hedits, List.map_append, List.map_cons])
  · rw [hgrown.eq_foldr]
    exact hrespect.keeps hget hb

/-- A registry with a commented import, a comment behind each anchor and a quote in two of them. -/
theorem patch_respects_regions_commented :
    let doc := lit "/*\nimport 'old';\n*/\nimport 'a'; // it's\nclass Router \x7b\n" ++
      lit "  static const String aName = 'a'; // \"\n\x7d\n" ++
      lit "final r = G(routes: [A(b, c) // d, e\n]);"
    let route := Route.ofFeature (Name.ofText (lit "x")) (lit "x.dart")
    AnchoredInCode {} .atomic route doc ∧
      ∃ edits : List (Part × Insertion), Grown {} .atomic route doc edits
          (patch {} .atomic doc route).text ∧ (edits.map Prod.fst).Nodup ∧
        ∀ pos b, doc[pos]? = some b → Byte.isSpace b = false →
          regionAt? (patch {} .atomic doc route).text
            (Insertion.place (edits.map Prod.snd) pos) = regionAt? doc pos := by
  intro doc route
  have hcode : AnchoredInCode {} .atomic route doc :=
    ⟨fun _ => by decide +kernel, fun _ => by decide +kernel, fun _ => by decide +kernel⟩
  have hpath : ∀ b ∈ lit "x.dart", Route.isPlainByte b := List.all_eq_true.mp rfl
  obtain ⟨edits, hgrown, hnodup, -, hkeeps⟩ := patch_respects_regions
    (⟨by decide, by decide, by decide⟩ : AnchorSpec.Accepted {})
    (show Name.validate (lit "x") = .ok (Name.ofText (lit "x")) by rfl) hpath .atomic doc
    fun _ => hcode
  exact ⟨hcode, edits, hgrown, hnodup, fun pos b hget hb => (hkeeps pos b hget hb).2⟩

/-- A registry that is commented out is patched all the same, within its comment. -/
theorem patch_commented_out :
    let doc := lit "/*\nimport 'a';\nclass Router \x7b\n  static const String aName = 'a';\n\x7d\n" ++
      lit "routes: [\n]\n*/\n"
    let route := Route.ofFeature (Name.ofText (lit "x")) (lit "x.dart")
    let outcome := patch {} .atomic doc route
    AnchorSpec.Accepted {} ∧ Name.validate (lit "x") = .ok (Name.ofText (lit "x")) ∧
      (∀ b ∈ lit "x.dart", Route.isPlainByte b) ∧ outcome.detail = .full ∧
      ∀ start ∈ [lit "import 'x.dart';", lit "static const String x = '/x';", lit "GoRoute("],
        Text.indexOf? start doc = none ∧
          (Text.indexOf? start outcome.text).bind (regionAt? outcome.text) = some .comment := by
  exact ⟨⟨by decide +kernel, by decide, by decide⟩, rfl, List.all_eq_true.mp rfl, by decide,
    by decide +kernel⟩

end FlutterScaffold.Registry
