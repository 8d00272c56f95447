import FlutterScaffold.Proofs.Registry.Agreement
import FlutterScaffold.Proofs.Registry.Idempotency

/-!
# What an outcome tells

An outcome is an honest account of a patch under either policy (`outcome_spec`). A patch is applied
exactly when it is full, and full exactly when every merge was attempted and none lacked its place.
It is modified exactly when the text is another one, which is so exactly when one of the decisions
that were carried out inserts something. The atomic policy carries out all decisions or none; the
best-effort policy carries out those before the first place that is missing, and that place decides
the detail.
-/

namespace FlutterScaffold.Registry

open FlutterScaffold.Text (splice block)

/-- The statuses of an outcome in the order of the merges. -/
def Outcome.statuses (outcome : Outcome) : List (Option Status) :=
  [outcome.importStatus, outcome.constantsStatus, outcome.entryStatus]

/-- How far a patch came when as many merges as given found their places. -/
def Detail.after : Nat → Detail
  | 0 => .noAnchor
  | 1 => .importOnly
  | 2 => .importAndConstants
  | _ => .full

/-- The decisions that a patch carries out. -/
def carriedOut (spec : AnchorSpec) (policy : Policy) (doc : Text) (route : Route) : List Step :=
  match policy with
  | .atomic =>
    if ∀ step ∈ steps spec doc route, step.status ≠ .missing then steps spec doc route else []
  | .bestEffort =>
    let seen := imported spec .bestEffort doc route
    let done := declared spec .bestEffort doc route
    [mergeImport doc (spec.scan doc) route, mergeConstants seen (spec.scan seen) route,
      mergeEntry spec done (spec.scan done) route].takeWhile (·.status ≠ .missing)

/-! ## Splices that change a text -/

section Change

variable {spec : AnchorSpec} {doc : Text} {route : Route}

theorem text_ne_nil_of_mem_mergeEntry :
    ∀ i ∈ (mergeEntry spec doc (spec.scan doc) route).insertions, i.text ≠ [] := by
  intro i hi
  rw [mergeEntry] at hi
  split at hi
  · simp [Step.insertions] at hi
  · split at hi
    · rename_i o closer _ _
      have hentry : (entryInsertion spec doc (spec.listStart o) closer route).text ≠ [] := by
        simp [entryInsertion, entryLines, lit]
      rcases appendEntry_insertions spec doc (spec.listStart o) closer with
        ⟨-, heq⟩ | ⟨last, -, -, heq⟩ <;> rw [heq] at hi
      · rwa [List.mem_singleton.mp hi]
      · rcases List.mem_cons.mp hi with rfl | hi
        · simp
        · rwa [List.mem_singleton.mp hi]
    · simp [Step.insertions] at hi

/-- One splice after the other changes a text exactly when one of them inserts something. -/
theorem foldl_splice_ne_iff (doc : Text) (edits : List (List Insertion))
    (h : ∀ l ∈ edits, ∀ i ∈ l, i.text ≠ []) :
    edits.foldl splice doc ≠ doc ↔ ∃ l ∈ edits, l ≠ [] := by
  have hgrow (edits : List (List Insertion)) (doc : Text) :
      doc.length ≤ (edits.foldl splice doc).length := by
    induction edits generalizing doc with
    | nil => exact le_rfl
    | cons l edits ih => exact (length_le_length_splice doc l).trans (ih _)
  induction edits with
  | nil => simp
  | cons l edits ih =>
    obtain ⟨hl, hedits⟩ := List.forall_mem_cons.mp h
    rw [List.foldl_cons]
    simp only [List.mem_cons, exists_eq_or_imp]
    by_cases hnil : l = []
    · simpa [hnil] using ih hedits
    · refine iff_of_true (fun heq => ?_) (Or.inl hnil)
      have hle : (splice doc l).length ≤ doc.length :=
        calc (splice doc l).length ≤ (edits.foldl splice (splice doc l)).length := hgrow edits _
          _ = doc.length := by rw [heq]
      exact hnil (eq_nil_of_length_splice_le hl hle)

end Change

/-! ## Both policies -/

section Policies

variable {spec : AnchorSpec} {doc : Text} {route : Route}

/-- The parts of an honest account that both policies share. -/
structure Outcome.Honest (outcome : Outcome) (doc : Text) (carriedOut : List Step) : Prop where
  applied_iff : outcome.applied = true ↔ outcome.detail = .full
  full_iff : outcome.detail = .full ↔ ∀ s ∈ outcome.statuses, s ≠ none ∧ s ≠ some .missing
  modified_iff : outcome.modified = true ↔ outcome.text ≠ doc
  text_ne_iff : outcome.text ≠ doc ↔ ∃ step ∈ carriedOut, step.insertions ≠ []
  text_eq_of_noAnchor : outcome.detail = .noAnchor → outcome.text = doc

/-- The texts that the merges insert are not empty. -/
theorem text_ne_nil_of_mem_steps (spec : AnchorSpec) (doc : Text) (route : Route) :
    ∀ step ∈ steps spec doc route, ∀ i ∈ step.insertions, i.text ≠ [] := by
  simp only [steps, List.forall_mem_cons, List.not_mem_nil, false_implies, implies_true, and_true]
  exact ⟨text_ne_nil_of_mem_mergeImport, text_ne_nil_of_mem_mergeConstants,
    text_ne_nil_of_mem_mergeEntry⟩

/-- The atomic policy is all or nothing and reports all three statuses. The three decisions make one
splice, so only their insertions taken together count. -/
private theorem patchAtomic_spec :
    (patchAtomic spec doc route).Honest doc (carriedOut spec .atomic doc route) ∧
      (patchAtomic spec doc route).text =
        splice doc ((carriedOut spec .atomic doc route).flatMap Step.insertions) ∧
      ((patchAtomic spec doc route).detail = .full ∨
        (patchAtomic spec doc route).detail = .noAnchor) ∧
      none ∉ (patchAtomic spec doc route).statuses := by
  have htexts := text_ne_nil_of_mem_steps spec doc route
  obtain ⟨i, hi⟩ : ∃ i, mergeImport doc (spec.scan doc) route = i := ⟨_, rfl⟩
  obtain ⟨c, hc⟩ : ∃ c, mergeConstants doc (spec.scan doc) route = c := ⟨_, rfl⟩
  obtain ⟨e, he⟩ : ∃ e, mergeEntry spec doc (spec.scan doc) route = e := ⟨_, rfl⟩
  simp only [carriedOut, patchAtomic, steps, hi, hc, he] at htexts ⊢
  have hfound : (∀ step ∈ [i, c, e], step.status ≠ .missing) ↔
      ¬ (i.status = .missing || c.status = .missing || e.status = .missing) = true := by
    simp [and_assoc]
  by_cases hmissing : ∀ step ∈ [i, c, e], step.status ≠ .missing
  · have hchange : splice doc (i.insertions ++ c.insertions ++ e.insertions) ≠ doc ↔
        i.insertions ++ c.insertions ++ e.insertions ≠ [] := by
      have h := foldl_splice_ne_iff doc [i.insertions ++ c.insertions ++ e.insertions]
      simp only [List.forall_mem_cons, List.mem_append] at h htexts
      simpa using h (by aesop)
    rw [if_pos hmissing, if_neg (hfound.mp hmissing)]
    refine ⟨⟨by simp, iff_of_true rfl ?_, ?_, ?_, by simp⟩, by simp, by simp,
      by simp [Outcome.statuses]⟩
    · simpa [Outcome.statuses] using hmissing
    · rw [hchange]
      simp
    · rw [hchange]
      simp
      tauto
  · rw [if_neg hmissing, if_pos (not_not.mp (mt hfound.mpr hmissing))]
    refine ⟨⟨by simp, iff_of_false (by simp) fun h => hmissing ?_, by simp, by simp, by simp⟩,
      by simp, by simp, by simp [Outcome.statuses]⟩
    simpa [Outcome.statuses] using h

/-- What is said of the statuses at their places is said of each of the three. -/
private theorem forall_getElem?_iff {a b c : Option Status} {p : Nat → Option Status → Prop} :
    (∀ j s, [a, b, c][j]? = some s → p j s) ↔ p 0 a ∧ p 1 b ∧ p 2 c := by
  constructor
  · exact fun h => ⟨h 0 a rfl, h 1 b rfl, h 2 c rfl⟩
  · rintro ⟨ha, hb, hc⟩ (_ | _ | _ | j) s hs <;> simp at hs <;> subst hs <;> assumption

/-- The best-effort policy stops at the first place that is missing. Where the policy stops, what it
carried out is the first few of the three decisions. -/
private theorem patchBestEffort_spec :
    (patchBestEffort spec doc route).Honest doc (carriedOut spec .bestEffort doc route) ∧
      (patchBestEffort spec doc route).text =
        ((carriedOut spec .bestEffort doc route).map Step.insertions).foldl splice doc ∧
      let found := (patchBestEffort spec doc route).statuses.findIdx (· = some .missing)
      (patchBestEffort spec doc route).detail = .after found ∧
        ∀ j s, (patchBestEffort spec doc route).statuses[j]? = some s → (s ≠ none ↔ j ≤ found) := by
  simp only [carriedOut, patchBestEffort, declared, imported]
  obtain ⟨i, hi⟩ : ∃ i, mergeImport doc (spec.scan doc) route = i := ⟨_, rfl⟩
  obtain ⟨seen, hseen⟩ : ∃ seen, splice doc i.insertions = seen := ⟨_, rfl⟩
  obtain ⟨c, hc⟩ : ∃ c, mergeConstants seen (spec.scan seen) route = c := ⟨_, rfl⟩
  obtain ⟨done, hdone⟩ : ∃ done, splice seen c.insertions = done := ⟨_, rfl⟩
  obtain ⟨e, he⟩ : ∃ e, mergeEntry spec done (spec.scan done) route = e := ⟨_, rfl⟩
  have hit : ∀ j ∈ i.insertions, j.text ≠ [] := hi ▸ text_ne_nil_of_mem_mergeImport
  have hct : ∀ j ∈ c.insertions, j.text ≠ [] := hc ▸ text_ne_nil_of_mem_mergeConstants
  have het : ∀ j ∈ e.insertions, j.text ≠ [] := he ▸ text_ne_nil_of_mem_mergeEntry
  have hchange (edits : List (List Insertion))
      (hedits : edits <+: [i.insertions, c.insertions, e.insertions]) :
      edits.foldl splice doc ≠ doc ↔ ∃ l ∈ edits, l ≠ [] := by
    refine foldl_splice_ne_iff doc edits fun l hl => ?_
    have hmem := hedits.subset hl
    simp only [List.mem_cons, List.not_mem_nil, or_false] at hmem
    rcases hmem with rfl | rfl | rfl
    · exact hit
    · exact hct
    · exact het
  simp only [hi, hseen, hc, hdone, he, Outcome.statuses]
  rw [forall_getElem?_iff]
  by_cases himissing : i.status = .missing
  · refine ⟨?_, by simp [himissing], by simp [himissing, Detail.after, List.findIdx_cons]⟩
    constructor <;> simp [himissing, Outcome.statuses]
  · by_cases hcmissing : c.status = .missing
    · have h := hchange [i.insertions] (by simp)
      simp only [List.foldl_cons, List.foldl_nil, hseen] at h
      refine ⟨?_, by simp [himissing, hcmissing, hseen],
        by simp [himissing, hcmissing, Detail.after, List.findIdx_cons]⟩
      constructor <;> simp [himissing, hcmissing, Outcome.statuses]
      simpa using h
    · by_cases hemissing : e.status = .missing
      · have h := hchange [i.insertions, c.insertions] (by simp)
        simp only [List.foldl_cons, List.foldl_nil, hseen, hdone] at h
        refine ⟨?_, by simp [himissing, hcmissing, hemissing, hseen, hdone,
            Step.insertions_of_missing hemissing],
          by simp [himissing, hcmissing, hemissing, Detail.after, List.findIdx_cons]⟩
        constructor <;> simp [himissing, hcmissing, hemissing, Outcome.statuses,
          Step.insertions_of_missing hemissing]
        simpa using h
      · have h := hchange [i.insertions, c.insertions, e.insertions] (by simp)
        simp only [List.foldl_cons, List.foldl_nil, hseen, hdone] at h
        refine ⟨?_, by simp [himissing, hcmissing, hemissing, hseen, hdone],
          by simp [himissing, hcmissing, hemissing, Detail.after, List.findIdx_cons]⟩
        constructor <;> simp [himissing, hcmissing, hemissing, Outcome.statuses]
        simpa using h

end Policies

/-- The outcome of a patch is an honest account of it. Under the atomic policy all decisions are
carried out at once or none is, and all three statuses are reported. Under the best-effort policy
the decisions are carried out one after the other, the first place that is missing decides the
detail, and exactly the statuses up to it are reported. -/
theorem outcome_spec (spec : AnchorSpec) (policy : Policy) (doc : Text) (route : Route) :
    let outcome := patch spec policy doc route
    let steps := carriedOut spec policy doc route
    outcome.Honest doc steps ∧
      match policy with
      | .atomic =>
        outcome.text = splice doc (steps.flatMap Step.insertions) ∧
          (outcome.detail = .full ∨ outcome.detail = .noAnchor) ∧ none ∉ outcome.statuses
      | .bestEffort =>
        outcome.text = (steps.map Step.insertions).foldl splice doc ∧
          let found := outcome.statuses.findIdx (· = some .missing)
          outcome.detail = .after found ∧
            ∀ j s, outcome.statuses[j]? = some s → (s ≠ none ↔ j ≤ found) := by
  cases policy with
  | atomic => exact patchAtomic_spec
  | bestEffort => exact patchBestEffort_spec

end FlutterScaffold.Registry
