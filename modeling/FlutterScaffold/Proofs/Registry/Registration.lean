import FlutterScaffold.Proofs.Disk.Replacement
import FlutterScaffold.Registry.Storage

/-!
# Registering on disk

A registration changes the registry file as a whole or not at all. Nothing is changed where the
registry is no file, where the patch leaves its text as it was, and where a fault stops the
registration; otherwise the registry holds the text of the patch, its sibling is gone, and all else
stands as it stood (`register_changes_registry_only`). The sibling is written whatever it is, so a
file that stands there shows the text at its other names, and a device there becomes the registry.
-/

namespace FlutterScaffold.Registry

open Disk (FileFault Host)

variable {desk : Desk} {registry : Path}

/-! ## Warnings -/

theorem run_report {ε : Type} (d : Diagnostic) (desk : Desk) :
    (Task.report d : Task ε Unit).run desk = (.ok (), { desk with log := desk.log ++ [d] }) := rfl

theorem run_forM_report {α ε : Type} (diagnostic : α → Diagnostic) (warnings : List α)
    (desk : Desk) :
    (warnings.forM fun warning => (Task.report (diagnostic warning) : Task ε Unit)).run desk =
      (.ok (), { desk with log := desk.log ++ warnings.map diagnostic }) := by
  induction warnings generalizing desk with
  | nil =>
    rw [List.map_nil, List.append_nil]
    rfl
  | cons warning warnings ih =>
    change
      (Task.report (diagnostic warning) >>= fun _ => warnings.forM _ : Task ε Unit).run desk = _
    rw [Disk.run_bind, run_report]
    dsimp only
    rw [ih, List.map_cons, List.append_assoc, List.singleton_append]

/-- A patch warns once about each declaration that had no place. -/
theorem length_warnings (outcome : Outcome) (spec : AnchorSpec) :
    (outcome.warnings spec).length =
      [outcome.importStatus, outcome.constantsStatus, outcome.entryStatus].count
        (some .missing) := by
  simp only [Outcome.warnings, List.count_cons, List.count_nil, List.length_append]
  split <;> split <;> split <;> simp_all

/-- Warnings about a registry count as warnings and not as errors. -/
theorem count_of_warnings {log after : Log} {warnings : List Warning} {route : Route}
    (h : after = log ++ warnings.map fun warning => warning.diagnostic registry route) :
    after.count .warning = log.count .warning + warnings.length ∧
      after.count .error = log.count .error := by
  have hall : ∀ d ∈ warnings.map (fun warning => warning.diagnostic registry route),
      d.severity = .warning := by
    simp [Warning.diagnostic]
  rw [h]
  simp only [Log.count, List.countP_append]
  constructor
  · rw [← List.length_map (fun warning => warning.diagnostic registry route),
      Nat.add_left_cancel_iff,
      List.countP_eq_length]
    intro d hd
    simp [hall d hd]
  · rw [Nat.add_eq_left, List.countP_eq_zero]
    intro d hd
    simp [hall d hd]

/-! ## The run of a registration -/

theorem run_register_of_not_isFile (h : desk.host.isFile registry = false) (spec : AnchorSpec)
    (policy : Policy) (route : Route) :
    (register registry spec policy route).run desk =
      (.ok { detail := .noRegistry },
        { desk with log := desk.log ++ [Warning.noRegistry.diagnostic registry route] }) := by
  rw [register, Disk.run_bind]
  simp only [show (get : Task FileFault Desk).run desk = (.ok desk, desk) from rfl, h]
  rfl

/-- The desk of a registration once it has warned about the outcome of the patch. -/
def warned (registry : Path) (spec : AnchorSpec) (route : Route) (outcome : Outcome) (desk : Desk) :
    Desk :=
  { desk with
    log := desk.log ++ (outcome.warnings spec).map fun warning =>
      warning.diagnostic registry route }

theorem run_register {doc : Text} (hfile : desk.host.isFile registry = true)
    (hdoc : desk.host.readFile registry = .ok doc) (spec : AnchorSpec)
    (policy : Policy) (route : Route) :
    (register registry spec policy route).run desk =
      let outcome := patch spec policy doc route
      let warned := warned registry spec route outcome desk
      if outcome.modified then
        match (Disk.replaceText registry outcome.text).run desk.host with
        | (.ok _, host) => (.ok outcome, { warned with host := host })
        | (.error fault, host) => (.error fault, { warned with host := host })
      else (.ok outcome, warned) := by
  have hread : (Task.onHost (Disk.readText registry) id : Task FileFault Text).run desk =
      (.ok doc, desk) := by
    rw [Disk.run_onHost, Disk.readText, Disk.run_bind]
    simp only [show (get : Disk.Action FileFault Host).run desk.host = (.ok desk.host, desk.host)
      from rfl, hdoc]
    rfl
  rw [register, Disk.run_bind]
  simp only [show (get : Task FileFault Desk).run desk = (.ok desk, desk) from rfl, hfile,
    Bool.not_true, Bool.false_eq_true, if_false]
  rw [Disk.run_bind, hread]
  dsimp only
  rw [Disk.run_bind, run_forM_report]
  dsimp only
  split
  · rw [Disk.run_bind, Disk.run_onHost]
    dsimp only
    generalize (Disk.replaceText registry (patch spec policy doc route).text).run desk.host = ended
    rcases ended with ⟨_ | _, host⟩ <;> rfl
  · rfl

/-- A registration with no link at the sibling of its registry replaces the registry file as a whole
or not at all. Where the registry is no file, it only warns. Where it is one, it warns once about
each declaration that the patch found no place for, and nothing else. A patch that changes nothing
leaves the host as it was, and so does a fault, which arises because the sibling is a directory or
has too long a name; the full device at the sibling is lost by it. Otherwise the registry holds the
text of the patch, its sibling is gone, and everything else stands as it stood, unless the sibling
is a device, which becomes the registry, or has other names, which show the text then; if the
registry is one of them, both stay. -/
theorem register_changes_registry_only (hs : desk.host.Sound)
    (hlink : ¬ desk.host.NamesLink (Disk.temporary registry)) (spec : AnchorSpec)
    (policy : Policy) (route : Route) :
    let result := ((register registry spec policy route).runOn desk).1
    let after := ((register registry spec policy route).runOn desk).2
    (desk.host.isFile registry = false →
      result = .ok { detail := .noRegistry } ∧ after.host = desk.host ∧
        after.log = desk.log ++ [Warning.noRegistry.diagnostic registry route] ∧
        after.log.count .warning = desk.log.count .warning + 1 ∧
        after.log.count .error = desk.log.count .error) ∧
      (desk.host.isFile registry = true →
        ∃ doc, desk.host.readFile registry = .ok doc ∧
          let outcome := patch spec policy doc route
          after.log = desk.log ++
              (outcome.warnings spec).map (fun warning => warning.diagnostic registry route) ∧
            after.log.count .warning = desk.log.count .warning +
              [outcome.importStatus, outcome.constantsStatus, outcome.entryStatus].count
                (some .missing) ∧
            after.log.count .error = desk.log.count .error ∧
            (outcome.modified = false → result = .ok outcome ∧ after.host = desk.host) ∧
            (outcome.modified = true →
              (∃ fault, result = .error fault ∧ Disk.Refuses registry desk.host after.host) ∨
                result = .ok outcome ∧
                  ∃ place sibling, desk.host.Names registry place ∧
                    desk.host.Names (Disk.temporary registry) sibling ∧
                    (after.host.tree.get? sibling = none ∨
                      desk.host.tree.SameObject sibling place) ∧
                    (after.host.tree.get? place = some (.file outcome.text) ∧
                        after.host.readFile registry = .ok outcome.text ∨
                      ∃ device, desk.host.tree.get? sibling = some (.device device) ∧
                        after.host.tree.get? place = some (.device device)) ∧
                    ∀ other, other ≠ place → ¬ desk.host.tree.Shows sibling other →
                      after.host.tree.get? other = desk.host.tree.get? other)) := by
  intro result after
  refine ⟨fun hfile => ?_, fun hfile => ?_⟩
  · have hrun := run_register_of_not_isFile hfile spec policy route
    have hlog : after.log = desk.log ++ [Warning.noRegistry].map
        fun warning => warning.diagnostic registry route := congrArg (Desk.log ∘ Prod.snd) hrun
    exact ⟨congrArg Prod.fst hrun, congrArg (Desk.host ∘ Prod.snd) hrun, hlog,
      count_of_warnings hlog⟩
  · obtain ⟨w, doc, hleads, hget⟩ := hs.isFile_iff.mp hfile
    have hdoc : desk.host.readFile registry = .ok doc := hleads.readFile_eq hget
    refine ⟨doc, hdoc, ?_⟩
    intro outcome
    have hrun := run_register hfile hdoc spec policy route
    have hlog : after.log = desk.log ++ (outcome.warnings spec).map
        fun warning => warning.diagnostic registry route := by
      refine (congrArg (Desk.log ∘ Prod.snd) hrun).trans ?_
      dsimp only [Function.comp]
      split
      · split <;> rfl
      · rfl
    have hcounts := count_of_warnings hlog
    rw [length_warnings] at hcounts
    refine ⟨hlog, hcounts.1, hcounts.2, fun hmodified => ?_, fun hmodified => ?_⟩
    · have hunmodified := hrun.trans (if_neg (by simp [outcome, hmodified]))
      exact ⟨congrArg Prod.fst hunmodified, congrArg (Desk.host ∘ Prod.snd) hunmodified⟩
    · have hreplaced := hrun.trans (if_pos hmodified)
      rcases Disk.replaceText_of_isFile hs hfile hlink outcome.text with
        ⟨fault, final, hended, hrefuses⟩ | ⟨final, place, sibling, hended, hends⟩
      · rw [hended] at hreplaced
        have hhost : after.host = final := congrArg (Desk.host ∘ Prod.snd) hreplaced
        exact Or.inl ⟨fault, congrArg Prod.fst hreplaced, hhost ▸ hrefuses⟩
      · rw [hended] at hreplaced
        have hhost : after.host = final := congrArg (Desk.host ∘ Prod.snd) hreplaced
        rw [hhost]
        exact Or.inr ⟨congrArg Prod.fst hreplaced, place, sibling, hends⟩

/-- A route is registered in a file of the current directory. -/
theorem register_changes_registry_only_new_route :
    let doc := lit "import 'a';\nclass Router \x7b\n  static const String aName = 'a';\n\x7d\nroutes: [\n]\n"
    let desk : Desk :=
      { host := { tree := (Disk.Tree.mk Disk.devices).put [lit "r.dart"] (.file doc) } }
    let route := Route.ofFeature (Name.ofText (lit "x")) (lit "x.dart")
    let outcome := patch {} .atomic doc route
    let result := ((register (lit "r.dart") {} .atomic route).runOn desk).1
    let after := ((register (lit "r.dart") {} .atomic route).runOn desk).2
    (desk.host.Sound ∧ ¬ desk.host.NamesLink (Disk.temporary (lit "r.dart"))) ∧
      outcome.modified = true ∧ result = .ok outcome ∧
      after.host.readFile (lit "r.dart") = .ok outcome.text ∧
      after.host.tree.get? [lit "r.dart"] = some (.file outcome.text) ∧
      ∀ other, other ≠ [lit "r.dart"] →
        after.host.tree.get? other = desk.host.tree.get? other := by
  intro doc desk route outcome
  have hs : desk.host.Sound :=
    (Host.sound_devices.sets_put (rfl : Disk.Tree.get? _ [lit "r.dart"].tail = _)
      (by decide) (.file doc)).sound
  have hstatus : desk.host.linkStatus (Disk.temporary (lit "r.dart")) = .error .noEntry := by
    decide
  have hlink := Host.not_namesLink_of_error hstatus
  have hmodified : outcome.modified = true := by decide
  have hread : desk.host.readFile (lit "r.dart") = .ok doc := by decide
  have hfile : desk.host.isFile (lit "r.dart") = true := by decide
  have hplace : desk.host.Names (lit "r.dart") [lit "r.dart"] := by decide
  have hsibling : desk.host.Names (Disk.temporary (lit "r.dart")) [lit "r.dart.boilr-tmp"] := by
    decide
  have hnone : desk.host.tree.get? [lit "r.dart.boilr-tmp"] = none := by decide
  have hwhy : ¬ (desk.host.isDirectory (Disk.temporary (lit "r.dart")) ∨
      Disk.maxPath ≤ (Disk.temporary (lit "r.dart")).length ∨
      Disk.maxName < (Path.fileName (Disk.temporary (lit "r.dart"))).length) := by decide
  have hzero : (0 : Byte) ∉ lit "r.dart" := by decide
  have hregister := register_changes_registry_only hs hlink {} .atomic route
  generalize (register (lit "r.dart") {} .atomic route).runOn desk = ran at hregister ⊢
  obtain ⟨-, hpresent⟩ := hregister
  obtain ⟨doc', hdoc, -, -, -, -, hchanged⟩ := hpresent hfile
  rw [← Except.ok.inj (hread.symm.trans hdoc)] at hchanged
  rcases hchanged hmodified with ⟨_, _, ⟨-, h⟩ | ⟨sibling, hnames, hfull | h, -⟩⟩ |
    ⟨hresult, place, sibling, hnames, hnames', hgone, hheld, hframe⟩
  · exact absurd h hwhy
  · rw [hsibling.det hnames, hnone] at hfull
    exact absurd hfull (by simp)
  · exact absurd h hzero
  · rw [hplace.det hnames] at hheld hframe
    rw [hsibling.det hnames'] at hheld hframe hgone
    have hshows {other : Disk.Place} :
        desk.host.tree.Shows [lit "r.dart.boilr-tmp"] other → other = [lit "r.dart.boilr-tmp"] :=
      fun h => h.resolve_right fun hsame => hsame.symm.2.1 (Disk.Tree.get?_eq_none_iff.mp hnone)
    have hlost : ran.2.host.tree.get? [lit "r.dart.boilr-tmp"] = none :=
      hgone.resolve_right fun hsame => hsame.2.1 (Disk.Tree.get?_eq_none_iff.mp hnone)
    obtain ⟨hget, hread'⟩ := hheld.resolve_right fun ⟨device, h, _⟩ => by
      simp [hnone] at h
    refine ⟨⟨hs, hlink⟩, hmodified, hresult, hread', hget, fun other hother => ?_⟩
    by_cases heq : other = [lit "r.dart.boilr-tmp"]
    · rw [heq, hlost, hnone]
    · exact hframe other hother (mt hshows heq)

end FlutterScaffold.Registry
