import FlutterScaffold.Proofs.Registry.Addition
import FlutterScaffold.Registry.Patch

/-!
# The two policies agree on ordered registries

The atomic policy decides all three merges on the document it is given, the best-effort policy each
merge on the result of the ones before. Where the places of a registry stand in the usual order, a
merge only moves what the later merges look at. So both policies take the same decisions, and what
the best-effort policy leaves behind is the document with the insertions that were decided on it
before the first place that is missing (`bestEffort_agrees_with_atomic`).
-/

namespace FlutterScaffold.Registry

open FlutterScaffold.Text (lastLine splice)
open Byte (newline isBlank)

/-- The places of a registry stand in the usual order, as far as they are found. -/
structure Anchors.Ordered (anchors : Anchors) : Prop where
  importEnd_le_containerOpen : ∀ e ∈ anchors.importEnd, ∀ o ∈ anchors.containerOpen, e ≤ o
  importEnd_le_listOpen : ∀ e ∈ anchors.importEnd, ∀ o ∈ anchors.listOpen, e ≤ o
  constantEnd_le_listOpen : ∀ c ∈ anchors.constantEnd, ∀ o ∈ anchors.listOpen, c ≤ o

/-- The decisions about the three declarations of a route, all taken on the document as it is. -/
def steps (spec : AnchorSpec) (doc : Text) (route : Route) : List Step :=
  [mergeImport doc (spec.scan doc) route, mergeConstants doc (spec.scan doc) route,
    mergeEntry spec doc (spec.scan doc) route]

theorem Step.ahead_zero (step : Step) : step.ahead 0 = step := by
  cases step with
  | insert first more => simp [ahead, Insertion.map_ahead_zero, Insertion.ahead]
  | keep => rfl
  | refuse => rfl

/-! ## One merge ahead of the others -/

section Stages

variable {spec : AnchorSpec} {doc : Text} {route : Route}

/-- The import is written as an addition that leaves the later decisions as they are. -/
private theorem import_addition (hs : spec.Plain) (hr : route.Plain) {a m b : Text}
    (hlast : lastLine (a ++ m) = m) (hm : IsImport m)
    (hcontainer : ∀ o ∈ spec.containerOpen? (a ++ m ++ b), (a ++ m).length ≤ o)
    (hlist : ∀ o ∈ spec.listOpen? (a ++ m ++ b), (a ++ m).length ≤ o) {t : Text}
    (ht : t = (blockBelow (a ++ m ++ b) (a ++ m).length (importLines route)).text) :
    Addition (a ++ m) t b ∧
      mergeConstants (a ++ m ++ (t ++ b)) (spec.scan (a ++ m ++ (t ++ b))) route =
        (mergeConstants (a ++ m ++ b) (spec.scan (a ++ m ++ b)) route).ahead t.length ∧
      mergeEntry spec (a ++ m ++ (t ++ b)) (spec.scan (a ++ m ++ (t ++ b))) route =
        (mergeEntry spec (a ++ m ++ b) (spec.scan (a ++ m ++ b)) route).ahead t.length := by
  have hnl := Text.isLineBreak_lineBreak (a ++ m ++ b)
  have hindent : ∀ x ∈ Text.lineIndent (a ++ m ++ b) ((a ++ m).length - 1), isBlank x := fun x =>
    Text.isBlank_of_mem_lineIndent
  have hpath : newline ∉ route.importPath := fun hmem =>
    absurd (hr.importPath_plain _ hmem) (by decide)
  obtain ⟨u, hu, hsemi⟩ := exists_importLine route
  obtain ⟨m', hm'⟩ := exists_append_of_isImport hm
  have hsemi_m : byte ';' ∈ lastLine (a ++ m) := by
    rw [hlast, hm']
    simp
  have hadd : Addition (a ++ m) t b :=
    ht ▸ addition_importLines b hr.importPath_plain ⟨a ++ m', by rw [hm', List.append_assoc]⟩
  have hline := newline_not_mem_importLines hpath
  refine ⟨hadd, ?_, ?_⟩
  · refine hadd.mergeConstants hs.toAccepted hcontainer ?_
    rw [ht]
    exact declares_constantLines_insert hnl hindent a b hpath hlast hm
  · refine hadd.mergeEntry hs hlist ?_
    rw [ht, blockBelow, hu]
    rw [hu, List.forall_mem_singleton] at hline
    exact declares_entryLines_insert hnl hindent [] hs.toAccepted hr.toRegular (by simp)
      ⟨hline, hsemi⟩ hsemi_m

/-- What the decision about a declaration leaves to the ones that follow: they are taken as before,
`n` bytes further on, and may be carried out together with it. -/
structure Step.Leads (step : Step) (doc : Text) (later : List Step) (n : Nat) : Prop where
  splice_eq : ∀ l, (∀ i ∈ l, ∃ next ∈ later, i ∈ next.insertions) →
    splice doc (step.insertions ++ l) =
      splice (splice doc step.insertions) (l.map (Insertion.ahead n))

/-- A decision without insertions leaves all as it is. -/
theorem Step.leads_of_insertions_eq_nil {step : Step} (h : step.insertions = []) (doc : Text)
    (later : List Step) : step.Leads doc later 0 := by
  refine ⟨fun l _ => ?_⟩
  rw [h, Text.splice_nil, List.nil_append, Insertion.map_ahead_zero]

/-- A block in front of all later insertions moves them by its length. -/
theorem Step.leads_insert {a b : Text} {i : Insertion} {later : List Step}
    (hi : i.offset = a.length)
    (hlater : ∀ next ∈ later, ∀ j ∈ next.insertions, a.length ≤ j.offset) :
    (Step.insert i []).Leads (a ++ b) later i.text.length := by
  refine ⟨fun l hl => ?_⟩
  have hle : ∀ j ∈ l, a.length ≤ j.offset := fun j hj =>
    let ⟨next, hnext, hmem⟩ := hl j hj
    hlater next hnext j hmem
  have heq : i = { offset := a.length, text := i.text } := by rw [← hi]
  simp only [insertions, List.singleton_append]
  rw [heq, Text.splice_cons hle, Text.splice_singleton]

/-- The import leaves the decisions about the constants and the entry as they are. The constants are
inserted in the class, which is opened behind the import. -/
private theorem import_stage (hs : spec.Plain) (hr : route.Plain) (ho : (spec.scan doc).Ordered)
    {step constants entry : Step} {moved : Text}
    (hstep : step = mergeImport doc (spec.scan doc) route)
    (hconstants : constants = mergeConstants doc (spec.scan doc) route)
    (hentry : entry = mergeEntry spec doc (spec.scan doc) route)
    (hmoved : moved = splice doc step.insertions) :
    ∃ n, step.Leads doc [constants, entry] n ∧
      mergeConstants moved (spec.scan moved) route = constants.ahead n ∧
      mergeEntry spec moved (spec.scan moved) route = entry.ahead n ∧
      ∀ c ∈ spec.constantEnd? moved, ∀ o ∈ spec.listOpen? moved, c ≤ o := by
  by_cases hnil : step.insertions = []
  · have hdoc : moved = doc := by rw [hmoved, hnil, Text.splice_nil]
    rw [hdoc, ← hconstants, ← hentry]
    exact ⟨0, Step.leads_of_insertions_eq_nil hnil doc _, (Step.ahead_zero constants).symm,
      (Step.ahead_zero entry).symm, ho.constantEnd_le_listOpen⟩
  · rw [hstep] at hnil
    obtain ⟨e, he, heq⟩ := mergeImport_eq_insert hnil
    obtain ⟨i, hi⟩ : ∃ i, i = blockBelow doc e (importLines route) := ⟨_, rfl⟩
    obtain rfl : step = .insert i [] := by rw [hstep, heq, hi]
    obtain ⟨a, m, b, rfl, rfl, hlast, hm⟩ := exists_of_importEnd? he
    have hcontainer := ho.importEnd_le_containerOpen _ he
    have hlist := ho.importEnd_le_listOpen _ he
    obtain ⟨hadd, hc, hen⟩ := import_addition hs hr hlast hm hcontainer hlist
      (congrArg Insertion.text hi)
    have hsplice : moved = a ++ m ++ (i.text ++ b) := by
      rw [hmoved, hi]
      exact Text.splice_singleton _ _ _
    refine ⟨i.text.length, Step.leads_insert (by rw [hi]; rfl) ?_, ?_, ?_, ?_⟩
    · simp only [List.forall_mem_cons, List.not_mem_nil, false_implies, implies_true, and_true]
      refine ⟨fun j hj => ?_, fun j hj => ?_⟩
      · rw [hconstants] at hj
        obtain ⟨c, hc, heq⟩ := mergeConstants_eq_insert (List.ne_nil_of_mem hj)
        obtain ⟨o, ho, hlt⟩ := lt_constantEnd hc
        rw [heq] at hj
        rw [List.mem_singleton.mp hj]
        exact (hcontainer o ho).trans hlt.le
      · rw [hentry] at hj
        obtain ⟨o, ho, hle⟩ := exists_of_mem_mergeEntry hs.toAccepted hj
        exact (hlist o ho).trans hle
    · rw [hsplice, hc, hconstants]
    · rw [hsplice, hen, hentry]
    · rw [hsplice, hadd.constantEnd? hs.toAccepted hcontainer, hadd.listOpen? hs hlist]
      intro c' hc' o' ho'
      obtain ⟨c, hc, rfl⟩ := Option.map_eq_some_iff.mp hc'
      obtain ⟨o, hopen, rfl⟩ := Option.map_eq_some_iff.mp ho'
      exact Nat.add_le_add_left (ho.constantEnd_le_listOpen c hc o hopen) _

/-- The constants leave the decision about the entry as it is. -/
private theorem constants_stage (hs : spec.Plain) (hr : route.Plain)
    (ho : ∀ c ∈ spec.constantEnd? doc, ∀ o ∈ spec.listOpen? doc, c ≤ o)
    {step entry : Step} {moved : Text}
    (hstep : step = mergeConstants doc (spec.scan doc) route)
    (hentry : entry = mergeEntry spec doc (spec.scan doc) route)
    (hmoved : moved = splice doc step.insertions) :
    ∃ n, step.Leads doc [entry] n ∧
      mergeEntry spec moved (spec.scan moved) route = entry.ahead n := by
  by_cases hnil : step.insertions = []
  · have hdoc : moved = doc := by rw [hmoved, hnil, Text.splice_nil]
    rw [hdoc, ← hentry]
    exact ⟨0, Step.leads_of_insertions_eq_nil hnil doc _, (Step.ahead_zero entry).symm⟩
  · rw [hstep] at hnil
    obtain ⟨c, hc, heq⟩ := mergeConstants_eq_insert hnil
    obtain ⟨i, hi⟩ : ∃ i, i = blockBelow doc c (constantLines route) := ⟨_, rfl⟩
    obtain rfl : step = .insert i [] := by rw [hstep, heq, hi]
    have hlist := ho _ hc
    obtain ⟨a, m, b, rfl, rfl, -, hm⟩ := exists_of_constantEnd? hc
    obtain ⟨m', rfl⟩ := exists_append_of_isNameConstant hm
    rw [← List.append_assoc a m' [byte ';']] at *
    generalize a ++ m' = a at *
    have hadd : Addition (a ++ [byte ';']) i.text b := by
      rw [hi]
      exact addition_constantLines b hr.toRegular ⟨a, rfl⟩
    have hsplice : moved = a ++ [byte ';'] ++ (i.text ++ b) := by
      rw [hmoved, hi]
      exact Text.splice_singleton _ _ _
    refine ⟨i.text.length, Step.leads_insert (by rw [hi]; rfl) ?_, ?_⟩
    · simp only [List.forall_mem_singleton]
      intro j hj
      rw [hentry] at hj
      obtain ⟨o, ho, hle⟩ := exists_of_mem_mergeEntry hs.toAccepted hj
      exact (hlist o ho).trans hle
    · rw [hsplice, hentry]
      refine hadd.mergeEntry hs hlist ?_
      have hline := constantLines_statement hr.toRegular
      have hsemi : byte ';' ∈ lastLine (a ++ [byte ';']) := by
        rw [Text.lastLine_append (by decide)]
        simp
      rw [hi, blockBelow]
      exact declares_entryLines_insert (Text.isLineBreak_lineBreak _)
        (fun x => Text.isBlank_of_mem_lineIndent) [constantLine route.symbol route.path]
        hs.toAccepted hr.toRegular (fun l hl => hline l (by simp_all [constantLines]))
        (hline _ (by simp [constantLines])) hsemi

/-- What the best-effort policy does, told by the decisions on the document as it is. -/
private theorem patchBestEffort_eq (hs : spec.Plain) (hr : route.Plain)
    (ho : (spec.scan doc).Ordered) {importStep constants entry : Step}
    (himport : importStep = mergeImport doc (spec.scan doc) route)
    (hconstants : constants = mergeConstants doc (spec.scan doc) route)
    (hentry : entry = mergeEntry spec doc (spec.scan doc) route) :
    patchBestEffort spec doc route =
      if importStep.status = .missing then
        { detail := .noAnchor, importStatus := some importStep.status, text := doc }
      else if constants.status = .missing then
        { detail := .importOnly
          modified := splice doc importStep.insertions != doc
          importStatus := some importStep.status
          constantsStatus := some constants.status
          text := splice doc importStep.insertions }
      else
        let entered := splice doc
          (importStep.insertions ++ constants.insertions ++ entry.insertions)
        let detail := if entry.status = .missing then .importAndConstants else .full
        { applied := detail = .full
          detail := detail
          modified := entered != doc
          importStatus := some importStep.status
          constantsStatus := some constants.status
          entryStatus := some entry.status
          text := entered } := by
  obtain ⟨n, hleads, hc, he, hordered⟩ := import_stage hs hr ho himport hconstants hentry rfl
  obtain ⟨k, hleads', he'⟩ := constants_stage hs hr hordered rfl rfl rfl
  rw [hc] at hleads' he'
  rw [he] at hleads' he'
  have htext : splice (splice (splice doc importStep.insertions) (constants.ahead n).insertions)
      ((entry.ahead n).ahead k).insertions =
        splice doc (importStep.insertions ++ constants.insertions ++ entry.insertions) := by
    rw [Step.insertions_ahead k, ← hleads'.splice_eq _ (by simp), Step.insertions_ahead,
      Step.insertions_ahead, ← List.map_append, ← hleads.splice_eq, List.append_assoc]
    intro i hi
    rcases List.mem_append.mp hi with hi | hi
    · exact ⟨constants, by simp, hi⟩
    · exact ⟨entry, by simp, hi⟩
  simp only [patchBestEffort, ← himport, hc, he', htext, Step.status_ahead]

/-- Where nothing is missing, both policies make the same document. -/
theorem patchBestEffort_of_ordered (hs : spec.Plain) (hr : route.Plain)
    (ho : (spec.scan doc).Ordered)
    (h : ∀ step ∈ steps spec doc route, step.status ≠ .missing) :
    patchBestEffort spec doc route = { patchAtomic spec doc route with
      modified := (patchAtomic spec doc route).text != doc } := by
  simp only [steps, List.forall_mem_cons, List.not_mem_nil, false_implies, implies_true,
    and_true] at h
  obtain ⟨hi, hc, he⟩ := h
  rw [patchBestEffort_eq hs hr ho rfl rfl rfl]
  simp [patchAtomic, hi, hc, he]

end Stages

/-- On a document whose places are in order, the two policies agree: the best-effort policy reports
the decisions of the atomic one as far as it comes, leaves the same text where nothing is missing,
and otherwise carries out the insertions decided before the first missing place. -/
theorem bestEffort_agrees_with_atomic {spec : AnchorSpec} {text importPath : Text} {name : Name}
    (doc : Text) (hs : spec.Plain) (hname : Name.validate text = .ok name) (hne : importPath ≠ [])
    (hplain : ∀ b ∈ importPath, Route.isPlainByte b) (ho : (spec.scan doc).Ordered) :
    let route := Route.ofFeature name importPath
    let atomic := patch spec .atomic doc route
    let effort := patch spec .bestEffort doc route
    (effort.importStatus = atomic.importStatus ∧
      effort.constantsStatus =
        (if atomic.importStatus = some .missing then none else atomic.constantsStatus) ∧
      effort.entryStatus =
        (if atomic.importStatus = some .missing ∨ atomic.constantsStatus = some .missing then none
          else atomic.entryStatus)) ∧
    (atomic.detail = .full → effort.detail = .full ∧ effort.text = atomic.text) ∧
    (atomic.detail ≠ .full → effort.text =
      splice doc (((steps spec doc route).takeWhile (·.status ≠ .missing)).flatMap
        Step.insertions)) := by
  intro route atomic effort
  have hr : route.Plain := ⟨Route.regular_ofFeature hname importPath, hne, hplain⟩
  have heffort := patchBestEffort_eq hs hr ho rfl rfl rfl
  have hsteps : steps spec doc route = [mergeImport doc (spec.scan doc) route,
    mergeConstants doc (spec.scan doc) route, mergeEntry spec doc (spec.scan doc) route] := rfl
  simp only [atomic, effort, patch, heffort, patchAtomic, hsteps]
  generalize mergeImport doc (spec.scan doc) route = importStep
  generalize mergeConstants doc (spec.scan doc) route = constants
  generalize mergeEntry spec doc (spec.scan doc) route = entry
  by_cases hi : importStep.status = .missing
  · simp [hi]
  · by_cases hc : constants.status = .missing
    · simp [hi, hc]
    · by_cases he : entry.status = .missing
      · simp [hi, hc, he, Step.insertions_of_missing he]
      · simp [hi, hc, he]

/-- A registry with one route whose constants and entry share lines with other code, in an order
that both policies agree on. -/
theorem bestEffort_agrees_with_atomic_mixed_lines :
    let doc := lit "import 'a.dart'; // home\r\n" ++
      lit "class Router \x7b static const String aName = 'a'; \x7d\n" ++
      lit "final r = G(routes: [A()]);"
    let route := Route.ofFeature (Name.ofText (lit "user profile")) (lit "b/user_profile.dart")
    (patch {} .atomic doc route).detail = .full ∧
      (patch {} .bestEffort doc route).text = (patch {} .atomic doc route).text := by
  intro doc route
  have hs : AnchorSpec.Plain {} :=
    ⟨⟨by decide, by decide, by decide⟩, by decide⟩
  have hscan : AnchorSpec.scan {} doc = ⟨some 16, some 26, some 73, some 88, some 100⟩ := by
    decide +kernel
  have ho : (AnchorSpec.scan {} doc).Ordered := by
    rw [hscan]
    exact ⟨by simp, by simp, by simp⟩
  have hfull : (patch {} .atomic doc route).detail = .full := by decide +kernel
  have hagree := bestEffort_agrees_with_atomic doc hs
    (show Name.validate (lit "user profile") = .ok (Name.ofText (lit "user profile")) by rfl)
    (show lit "b/user_profile.dart" ≠ [] by decide) (List.all_eq_true.mp rfl) ho
  exact ⟨hfull, (hagree.2.1 hfull).2⟩

end FlutterScaffold.Registry
