import FlutterScaffold.Proofs.Path.Resolution
import FlutterScaffold.Project.Manifest

/-!
# Which places a manifest may name

A manifest names places of its project by relative paths, and each is checked on its normal form, in
which every `..` has cancelled the ordinary name before it. The check says the same as a walk along
the components of the path as it is written: it passes exactly the paths that do not start at the
root and on which no point is reached with more `..` than ordinary names behind it
(`isInside_iff_neverClimbs`).
-/

namespace FlutterScaffold

namespace Path

open FlutterScaffold.Text (cut)
open Byte (slash)

/-- Components that are neither `..` nor ordinary do not matter to a walk. -/
theorem neverClimbs_filter_iff {p : Text → Bool} {components : List Text}
    (hkeep : ∀ c, c = dotDot ∨ isOrdinary c → p c) :
    NeverClimbs (components.filter p) ↔ NeverClimbs components := by
  have hcount (walked : List Text) : (walked.filter p).count dotDot = walked.count dotDot :=
    List.count_filter (hkeep dotDot (Or.inl rfl))
  have hcountP (walked : List Text) :
      (walked.filter p).countP isOrdinary = walked.countP isOrdinary := by
    rw [List.countP_filter]
    refine List.countP_congr fun c _ => ?_
    simp only [Bool.and_eq_true, and_iff_left_iff_imp]
    exact fun hc => hkeep c (Or.inr hc)
  constructor
  · intro h walked hwalked
    have hle := h (walked.filter p) (hwalked.filter p)
    rwa [hcount, hcountP] at hle
  · intro h walked hwalked
    obtain ⟨longer, hlonger, rfl⟩ := List.prefix_filter_iff.mp hwalked
    rw [hcount, hcountP]
    exact h longer hlonger

/-- The empty components between slashes say nothing about climbing. -/
theorem neverClimbs_names_iff (p : Path) : NeverClimbs p.names ↔ NeverClimbs (cut slash p) := by
  refine neverClimbs_filter_iff fun c hc => ?_
  rcases hc with rfl | hc
  · rfl
  · simpa using (isOrdinary_iff.mp hc).1

/-- What stays below its start as it is has a normal form without `..`. -/
theorem isInside_of_stays {r : Path} (h : r.Stays) : r.isInside := by
  have hclimb (walked : List Text) (hwalked : walked <+: r.names) :
      walked.count dotDot ≤ walked.countP isOrdinary + ([] : List Text).length :=
    h.names walked hwalked
  have hstack : Ordinary ([] : List Text) := by simp [Ordinary]
  obtain ⟨-, hordinary⟩ := resolve?_eq_foldl_pushName hstack
    (fun name hname => ne_nil_of_mem_names hname) hclimb
  have hnot : dotDot ∉ r.names.foldl (pushName false) [] := fun hmem =>
    (isOrdinary_iff.mp (hordinary dotDot hmem)).2.2 rfl
  rw [isInside, h.relative]
  simpa [normalNames] using hnot

theorem isInside_iff_stays {r : Path} : r.isInside ↔ r.Stays :=
  ⟨stays_of_isInside, isInside_of_stays⟩

theorem stays_iff {r : Path} : r.Stays ↔ r.head? ≠ some slash ∧ NeverClimbs (cut slash r) := by
  have habsolute : r.isAbsolute = false ↔ r.head? ≠ some slash := by simp [isAbsolute]
  rw [← neverClimbs_names_iff, ← habsolute]
  constructor
  · intro h
    exact ⟨h.relative, h.names⟩
  · rintro ⟨hrelative, hnames⟩
    exact stays_of_names hrelative hnames

end Path

namespace Project

open FlutterScaffold.Text (cut)
open Byte (slash)

/-- The directives that name places of the project. -/
def Directive.places : List Directive := [.router, .features, .widgets, .providers]

/-- The place of a part of the project is set exactly when it passes the check. -/
theorem isOk_assign_of_mem_places {directive : Directive} (h : directive ∈ Directive.places)
    (config : Config) (value : Text) :
    (config.assign directive value).isOk = Path.isInside value := by
  have hchecked (changed : Config) (fault : LineFault) :
      (if Path.isInside value then .ok changed else .error fault : Except LineFault Config).isOk =
        Path.isInside value := by
    cases Path.isInside value <;> rfl
  simp only [Directive.places, List.mem_cons, List.not_mem_nil, or_false] at h
  rcases h with rfl | rfl | rfl | rfl <;> exact hchecked _ _

/-- The check of a path is exact: it passes the paths that do not start at the root and on which,
component by component, there are never more `..` than ordinary names so far. A manifest may set the
registry and the three directories to these paths and to no others. -/
theorem isInside_iff_neverClimbs (value : Text) :
    (Path.isInside value ↔ value.head? ≠ some slash ∧ Path.NeverClimbs (cut slash value)) ∧
      ∀ directive ∈ Directive.places, ∀ config : Config,
        ((config.assign directive value).isOk ↔
          value.head? ≠ some slash ∧ Path.NeverClimbs (cut slash value)) := by
  have hinside : Path.isInside value ↔
      value.head? ≠ some slash ∧ Path.NeverClimbs (cut slash value) :=
    Path.isInside_iff_stays.trans Path.stays_iff
  refine ⟨hinside, ?_⟩
  intro directive hdirective config
  rw [isOk_assign_of_mem_places hdirective]
  exact hinside

/-- A path may come back to its start, through `.` and between doubled slashes, but not pass it. -/
theorem isInside_iff_neverClimbs_winding :
    let config : Config := {}
    .features ∈ Directive.places ∧ Path.NeverClimbs (cut slash (lit "a/./..//b/c/../..")) ∧
      (config.assign .features (lit "a/./..//b/c/../..")).isOk ∧
      ¬ Path.NeverClimbs (cut slash (lit "a/./..//../b")) := by
  intro config
  have hplace : Directive.features ∈ Directive.places := by decide
  have hgood := (isInside_iff_neverClimbs (lit "a/./..//b/c/../..")).1.mp (by decide)
  have hbad := mt (isInside_iff_neverClimbs (lit "a/./..//../b")).1.mpr (by decide)
  refine ⟨hplace, hgood.2, ?_, ?_⟩
  · exact ((isInside_iff_neverClimbs _).2 .features hplace config).mpr hgood
  · exact fun hclimbs => hbad ⟨by decide, hclimbs⟩

end Project

end FlutterScaffold
