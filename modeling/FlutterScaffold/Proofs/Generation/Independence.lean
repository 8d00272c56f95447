import FlutterScaffold.Proofs.Disk.Lockstep
import FlutterScaffold.Proofs.Generation.Refusal

/-!
# Generating whatever the registry holds

A feature is generated before its route is registered, and nothing up to there reads the registry.
So two runs that start from the same files but for the bytes of the registry make the same
directories and files and end in the same way, as long as the registry can be replaced: what the
registry lacks is only warned about (`feature_ignores_registry`).
-/

namespace FlutterScaffold.Generation

open Disk (Host Lockstep)
open Project (Config)
open Byte (slash)

variable {config : Config} {overwrite : Bool} {text : Text} {name : Name} {place : Disk.Place}

/-! ## Up to the registration -/

/-- Desks whose hosts agree but for the bytes of one file, with given logs. -/
structure Parallel (number : Nat) (log log' : Log) (desk desk' : Desk) : Prop where
  alike : Host.Alike number desk.host desk'.host
  log_eq : desk.log = log
  log_eq' : desk'.log = log'

section Parallel

variable {number : Nat} {log log' : Log}

/-- Work on hosts in lockstep is in lockstep as a task. -/
theorem lockstep_onHost {ε δ α : Type} {action : Disk.Action δ α} (fault : δ → ε)
    (h : Lockstep (Host.Alike number) action) :
    Lockstep (Parallel number log log') (Task.onHost action fault : Task ε α) := by
  intro desk desk' hdesk
  rw [Disk.run_onHost, Disk.run_onHost]
  rcases h.cases hdesk.alike with
    ⟨_, _, _, hrun, hrun', hready⟩ | ⟨_, _, _, hrun, hrun', hready⟩ <;>
  · rw [hrun, hrun']
    exact ⟨rfl, hready, hdesk.log_eq, hdesk.log_eq'⟩

theorem lockstep_named (kind : String) (text : Text) :
    Lockstep (Parallel number log log') (named kind text) := by
  intro desk desk' hdesk
  rw [run_named, run_named]
  cases Name.validate text <;> exact ⟨rfl, hdesk⟩

/-- Targets exist on both hosts or on none. -/
theorem lockstep_checkTargets (overwrite : Bool) (files : List Path) :
    Lockstep (Parallel number log log') (checkTargets overwrite files) := by
  intro desk desk' hdesk
  cases overwrite with
  | true => exact ⟨rfl, hdesk⟩
  | false =>
    rw [run_checkTargets, run_checkTargets, hdesk.alike.exists?_eq]
    cases files.find? desk.host.exists? <;> exact ⟨rfl, hdesk⟩

theorem lockstep_ensureAll (directories : List Path) (report : Report) :
    Lockstep (Parallel number log log') (ensureAll directories report) := by
  induction directories generalizing report with
  | nil => exact Disk.lockstep_pure report
  | cons d directories ih =>
    rw [ensureAll_cons]
    exact (lockstep_onHost _ (Disk.lockstep_ensureDirectory d)).bind fun _ => ih _

theorem lockstep_writeAll (files : List (Path × Text)) (report : Report) :
    Lockstep (Parallel number log log') (writeAll files report) := by
  induction files generalizing report with
  | nil => exact Disk.lockstep_pure report
  | cons file files ih =>
    rw [writeAll_cons]
    exact (lockstep_onHost _ (Disk.lockstep_writeText file.1 file.2)).bind fun _ => ih _

/-- Up to its registration, a feature does not depend on the bytes of any file. -/
theorem lockstep_groundwork (config : Config) (overwrite : Bool) (text : Text) :
    Lockstep (Parallel number log log') (groundwork config overwrite text) := by
  refine (lockstep_named _ _).bind fun name => (lockstep_checkTargets _ _).bind fun _ => ?_
  refine (lockstep_ensureAll _ _).bind fun _ => (lockstep_writeAll _ _).bind fun report => ?_
  exact Disk.lockstep_pure (name, report)

end Parallel

/-! ## The registry and its sibling -/

section Registry

variable {host later : Host} {registry : Path} {stop : Disk.Place}
  (hs : host.Sound) (hleads : host.LeadsTo registry place)
  (hkeeps : host.tree.Keeps later.tree) (hhere : later.here = host.here)
include hs hleads hkeeps hhere

/-- A path that leads somewhere names the same place as before where ways are kept. -/
theorem names_of_names_later (h : later.Names registry stop) : host.Names registry stop := by
  obtain ⟨earlier, hearlier, -⟩ := hleads.exists_names hs
  rwa [(hearlier.of_keeps hs hkeeps hhere).det h]

/-- The sibling of a file names the same place as before where ways are kept. -/
theorem names_sibling_of_names_later (hplace : host.tree.get? place ≠ some .directory)
    (h : later.Names (Disk.temporary registry) stop) :
    host.Names (Disk.temporary registry) stop := by
  by_cases hp : (0 : Byte) ∈ registry
  · rw [Disk.names_temporary_iff hp] at h ⊢
    exact names_of_names_later hs hleads hkeeps hhere h
  · have hlength := (Host.finds_iff.mp h).2.1
    rw [Disk.seen_temporary hp] at hlength
    obtain ⟨sibling, hearlier⟩ := Disk.names_temporary_of_leadsTo hp hleads hplace
      (Disk.fits_of_names_temporary hp h) hlength
    rwa [(Host.Names.of_keeps hearlier hs hkeeps hhere).det h]

end Registry

/-! ## From the registration on -/

section Registration

variable {desk written : Desk}

/-- A registry that is there when a feature is ready to be registered and that the patch changes is
replaced. -/
def ReplacesRegistry (config : Config) (overwrite : Bool) (text : Text) (desk : Desk) : Prop :=
  ∀ name report written doc,
    (groundwork config overwrite text).runOn desk = (.ok (name, report), written) →
    written.host.isFile config.routerPath → written.host.readFile config.routerPath = .ok doc →
    let outcome := Registry.patch config.anchors config.policy doc (featureRoute config name)
    outcome.modified →
      ((Disk.replaceText config.routerPath outcome.text).run written.host).1 = .ok ()

/-- The registry can be replaced where nothing stands at its sibling and the name of that is not too
long. -/
theorem replacesRegistry_of_free {refusal : Disk.Refusal} (hs : desk.host.Sound)
    (hfree : ((groundwork config overwrite text).runOn desk).2.host.linkStatus
      (Disk.temporary config.routerPath) = .error refusal)
    (hlength : (Disk.temporary config.routerPath).length < Disk.maxPath)
    (hname : (Path.fileName (Disk.temporary config.routerPath)).length ≤ Disk.maxName) :
    ReplacesRegistry config overwrite text desk := by
  intro name report written doc hrun hfile _ outcome _
  rw [hrun] at hfree
  have hwritten : written.host.Sound := (exists_of_groundwork hrun hs).2.1.sound
  have hnone {sibling : Disk.Place} (hsibling : written.host.Names
      (Disk.temporary config.routerPath) sibling) : written.host.tree.get? sibling = none := by
    cases hget : written.host.tree.get? sibling with
    | none => rfl
    | some entry =>
      have hstatus := hwritten.linkStatus_iff.mpr ⟨sibling, hsibling, hget⟩
      exact absurd (hstatus.symm.trans hfree) (by simp)
  rcases Disk.replaceText_of_isFile hwritten hfile (Host.not_namesLink_of_error hfree)
    outcome.text with
    ⟨_, _, -, ⟨-, hdirectory | hlong | hlong⟩ | ⟨sibling, hsibling, hfull | hp, -⟩⟩ |
      ⟨final, _, _, hended, -⟩
  · exact absurd hdirectory (by simp [hwritten.isDirectory_eq_false_of_error hfree])
  · exact absurd hlength (Nat.not_lt.mpr hlong)
  · exact absurd hname (Nat.not_le.mpr hlong)
  · exact absurd (hnone hsibling) (by simp [hfull])
  · exact absurd (hnone hsibling)
      (Disk.ne_none_of_names hwritten hfile ((Disk.names_temporary_iff hp).mp hsibling))
  · rw [hended]

/-- A registration with no link at the sibling of its registry touches nothing but the registry and
the sibling, under any of the names of that. -/
theorem get?_register {registry : Path} (hs : desk.host.Sound)
    (hlink : ¬ desk.host.NamesLink (Disk.temporary registry)) (spec : Registry.AnchorSpec)
    (policy : Registry.Policy) (route : Route) (other : Disk.Place)
    (hregistry : ¬ desk.host.Names registry other)
    (hsibling : ∀ sibling, desk.host.Names (Disk.temporary registry) sibling →
      ¬ desk.host.tree.Shows sibling other) :
    ((Registry.register registry spec policy route).run desk).2.host.tree.get? other =
      desk.host.tree.get? other := by
  refine Classical.byContradiction fun hne => ?_
  rcases names_of_register hs spec policy route hne with hnames | hnames | haffects
  · exact hregistry hnames
  · exact hsibling other hnames (Or.inl rfl)
  · obtain ⟨through, hthrough, hshows⟩ := haffects
    obtain ⟨stop, hstop, rfl | hlinked⟩ := hthrough.exists_names hs
    · exact hsibling stop hstop hshows
    · exact hlink ((hs.namesLink_iff hstop).mpr hlinked)

/-- A registration that replaces its registry when it has to succeeds, and it only warns. -/
theorem register_of_replaced {registry : Path} {doc : Text} (hs : desk.host.Sound)
    (hleads : desk.host.LeadsTo registry place)
    (hget : desk.host.tree.get? place = some (.file doc)) (spec : Registry.AnchorSpec)
    (policy : Registry.Policy) (route : Route)
    (hreplaced : (Registry.patch spec policy doc route).modified →
      ((Disk.replaceText registry (Registry.patch spec policy doc route).text).run desk.host).1 =
        .ok ()) :
    ∃ after, (Registry.register registry spec policy route).run desk =
        (.ok (Registry.patch spec policy doc route), after) ∧
      after.log = desk.log ++ ((Registry.patch spec policy doc route).warnings spec).map
        (fun warning => warning.diagnostic registry route) := by
  have hrun := Registry.run_register (hs.isFile_iff.mpr ⟨place, doc, hleads, hget⟩)
    (hleads.readFile_eq hget) spec policy route
  rw [hrun]
  cases hmodified : (Registry.patch spec policy doc route).modified with
  | false =>
    simp only [hmodified, Bool.false_eq_true, if_false]
    exact ⟨_, rfl, rfl⟩
  | true =>
    have hok := hreplaced hmodified
    simp only [hmodified, if_true]
    rcases hended : (Disk.replaceText registry (Registry.patch spec policy doc route).text).run
      desk.host with ⟨fault | _, final⟩ <;> rw [hended] at hok
    · simp at hok
    · exact ⟨_, rfl, rfl⟩

/-- A feature that is ready to be registered is generated, whatever its registry holds. -/
theorem feature_of_groundwork {report : Report} (hs : desk.host.Sound)
    (hleads : desk.host.LeadsTo config.routerPath place)
    (hfile : ∃ number, desk.host.tree.slot? place = some (.object number .file))
    (hlink : ¬ desk.host.NamesLink (Disk.temporary config.routerPath))
    (hreplaces : ReplacesRegistry config overwrite text desk)
    (h : (groundwork config overwrite text).run desk = (.ok (name, report), written)) :
    ∃ outcome after warnings, (feature config overwrite text).run desk =
        (.ok { directories := featureDirectories config name
               files := (featureFiles config name).map (·.1)
               registration := some outcome }, after) ∧
      after.log = written.log ++ warnings ∧ (∀ d ∈ warnings, d.severity = .warning) ∧
      ∀ other, ¬ desk.host.Names config.routerPath other →
        (∀ sibling, desk.host.Names (Disk.temporary config.routerPath) sibling →
          ¬ desk.host.tree.Shows sibling other) →
          after.host.tree.get? other = written.host.tree.get? other := by
  obtain ⟨hprepares, hfills, -⟩ := exists_of_groundwork h hs
  obtain ⟨number, hslot⟩ := hfile
  have hadds := hprepares.adds.trans hfills.adds
  have hnot : desk.host.tree.get? place ≠ some .directory := by
    rw [Ne, Disk.Tree.get?_eq_directory_iff, hslot]
    simp
  have hhere : written.host.here = desk.host.here := hfills.here.trans hprepares.here
  obtain ⟨doc, hget⟩ : ∃ doc, written.host.tree.get? place = some (.file doc) := by
    refine ⟨written.host.tree.content number, ?_⟩
    rw [Disk.Tree.get?, hadds.slots place (by simp [hslot]), hslot]
    rfl
  have hleads' : written.host.LeadsTo config.routerPath place :=
    hleads.of_keeps hs hadds.keeps hhere fun target heq => by simp [hget] at heq
  have hlink' : ¬ written.host.NamesLink (Disk.temporary config.routerPath) := by
    rintro ⟨target, hstatus⟩
    obtain ⟨sibling, hnames, hlinked⟩ := hfills.sound.linkStatus_iff.mp hstatus
    have hearlier := names_sibling_of_names_later hs hleads hadds.keeps hhere hnot hnames
    refine hlink ((hs.namesLink_iff hearlier).mpr ⟨target, hprepares.link_iff.mp ?_⟩)
    exact hfills.keeps_back.links sibling target hlinked
  have hreplaced := hreplaces name report written doc h
    (hfills.sound.isFile_iff.mpr ⟨place, doc, hleads', hget⟩) (hleads'.readFile_eq hget)
  obtain ⟨after, hrun, hlog⟩ := register_of_replaced hfills.sound hleads' hget config.anchors
    config.policy (featureRoute config name) hreplaced
  have hframe (other : Disk.Place) := get?_register hfills.sound hlink' config.anchors config.policy
    (featureRoute config name) other
  rw [hrun] at hframe
  refine ⟨Registry.patch config.anchors config.policy doc (featureRoute config name), after, _, ?_,
    hlog, ?_, fun other hregistry hsibling => hframe other ?_ fun sibling hnames hshows => ?_⟩
  · rw [feature_eq, Disk.run_bind, h]
    dsimp only
    rw [run_registerRoute, hrun, report_of_groundwork h]
  · simp [Registry.Warning.diagnostic]
  · exact fun hnames => hregistry (names_of_names_later hs hleads hadds.keeps hhere hnames)
  · exact hsibling sibling
      (names_sibling_of_names_later hs hleads hadds.keeps hhere hnot hnames) (hadds.shows hshows)

end Registration

/-- The bytes of the registry have no influence on a generation, as long as the registry can be
replaced. On hosts that agree but for them, either both generations fail in the same way, or both
succeed and tell of the same directories and files. The hosts agree in the end on all places but the
names of the registry file, those of its sibling, and the one that the path of the registry names;
and the registration adds nothing but warnings to the log. -/
theorem feature_ignores_registry {desk₁ desk₂ : Desk} {number : Nat}
    (halike : Host.Alike number desk₁.host desk₂.host)
    (hregistry : desk₁.host.LeadsTo config.routerPath place)
    (hfile : desk₁.host.tree.slot? place = some (.object number .file))
    (hlink : ¬ desk₁.host.NamesLink (Disk.temporary config.routerPath))
    (hreplaces₁ : ReplacesRegistry config overwrite text desk₁)
    (hreplaces₂ : ReplacesRegistry config overwrite text desk₂) :
    let ran₁ := (feature config overwrite text).runOn desk₁
    let ran₂ := (feature config overwrite text).runOn desk₂
    ((∃ fault, ran₁.1 = .error fault ∧ ran₂.1 = .error fault) ∨
        ∃ report₁ report₂, ran₁.1 = .ok report₁ ∧ ran₂.1 = .ok report₂ ∧
          report₁.directories = report₂.directories ∧ report₁.files = report₂.files) ∧
      (∀ other, ¬ desk₁.host.tree.Shows place other → ¬ desk₁.host.Names config.routerPath other →
        (∀ sibling, desk₁.host.Names (Disk.temporary config.routerPath) sibling →
          ¬ desk₁.host.tree.Shows sibling other) →
          ran₁.2.host.tree.get? other = ran₂.2.host.tree.get? other) ∧
      (∃ warnings, ran₁.2.log = desk₁.log ++ warnings ∧ ∀ d ∈ warnings, d.severity = .warning) ∧
      ∃ warnings, ran₂.2.log = desk₂.log ++ warnings ∧ ∀ d ∈ warnings, d.severity = .warning := by
  intro ran₁ ran₂
  have hadds := (onlyAdds_groundwork config overwrite text desk₁ halike.sound).2
  rcases (lockstep_groundwork config overwrite text).cases
    (⟨halike, rfl, rfl⟩ : Parallel number desk₁.log desk₂.log desk₁ desk₂) with
    ⟨fault, written₁, written₂, hrun₁, hrun₂, hwritten⟩ |
    ⟨⟨name, report⟩, written₁, written₂, hrun₁, hrun₂, hwritten⟩
  · have hran₁ : ran₁ = (.error fault, written₁) := by
      change (feature config overwrite text).run desk₁ = _
      rw [feature_eq, Disk.run_bind, hrun₁]
    have hran₂ : ran₂ = (.error fault, written₂) := by
      change (feature config overwrite text).run desk₂ = _
      rw [feature_eq, Disk.run_bind, hrun₂]
    rw [hran₁, hran₂]
    rw [hrun₁] at hadds
    refine ⟨Or.inl ⟨fault, rfl, rfl⟩, fun other hne _ _ => ?_, ?_, ?_⟩
    · exact (hwritten.alike.get?_eq (hadds.slot?_ne_of_not_shows hfile hne)).symm
    · exact ⟨[], by simpa using hwritten.log_eq, by simp⟩
    · exact ⟨[], by simpa using hwritten.log_eq', by simp⟩
  · obtain ⟨_, final₁, warnings₁, hran₁, hlog₁, hwarnings₁, hframe₁⟩ := feature_of_groundwork
      halike.sound hregistry ⟨number, hfile⟩ hlink hreplaces₁ hrun₁
    obtain ⟨_, final₂, warnings₂, hran₂, hlog₂, hwarnings₂, hframe₂⟩ := feature_of_groundwork
      halike.sound' (halike.leadsTo hregistry) ⟨number, halike.slot?_eq ▸ hfile⟩
      (mt halike.namesLink_iff.mp hlink) hreplaces₂ hrun₂
    rw [hrun₁] at hadds
    rw [hwritten.log_eq] at hlog₁
    rw [hwritten.log_eq'] at hlog₂
    rw [show ran₁ = _ from hran₁, show ran₂ = _ from hran₂]
    refine ⟨Or.inr ⟨_, _, rfl, rfl, rfl, rfl⟩, fun other hne hother hsibling => ?_,
      ⟨warnings₁, hlog₁, hwarnings₁⟩, warnings₂, hlog₂, hwarnings₂⟩
    calc final₁.host.tree.get? other
      _ = written₁.host.tree.get? other := hframe₁ other hother hsibling
      _ = written₂.host.tree.get? other :=
          (hwritten.alike.get?_eq (hadds.slot?_ne_of_not_shows hfile hne)).symm
      _ = final₂.host.tree.get? other := (hframe₂ other (mt halike.names_iff.mp hother)
          fun sibling hnames hshows => hsibling sibling (halike.names_iff.mp hnames)
            (halike.shows_iff.mp hshows)).symm

/-- A feature is generated beside a registry that takes its route and beside one that is no Dart. -/
theorem feature_ignores_registry_broken_brackets :
    let config : Config := {}
    let place : Disk.Place := [lit "app_router.dart", lit "router", lit "core", lit "lib"]
    let made := ((Disk.ensureDirectory (lit "lib/core/router")).run { tree := .mk Disk.devices }).2
    let desk (doc : Text) : Desk :=
      { host := { made with tree := made.tree.put place (.file doc) } }
    let desk₁ := desk (lit
      "import 'a';\nclass Router \x7b\n  static const String aName = 'a';\n\x7d\nroutes: [\n]\n")
    let desk₂ := desk (lit "]\x7d)")
    let number := made.tree.fresh
    let ran₁ := (feature config false (lit "x")).runOn desk₁
    let ran₂ := (feature config false (lit "x")).runOn desk₂
    (Host.Alike number desk₁.host desk₂.host ∧ desk₁.host.LeadsTo config.routerPath place ∧
        desk₁.host.tree.slot? place = some (.object number .file) ∧
        ¬ desk₁.host.NamesLink (Disk.temporary config.routerPath) ∧
        ReplacesRegistry config false (lit "x") desk₁ ∧
        ReplacesRegistry config false (lit "x") desk₂) ∧
      (∃ report₁ report₂, ran₁.1 = .ok report₁ ∧ ran₂.1 = .ok report₂ ∧
        report₁.directories = report₂.directories ∧ report₁.files = report₂.files) ∧
      (∀ other, ¬ desk₁.host.tree.Shows place other → ¬ desk₁.host.Names config.routerPath other →
        (∀ sibling, desk₁.host.Names (Disk.temporary config.routerPath) sibling →
          ¬ desk₁.host.tree.Shows sibling other) →
          ran₁.2.host.tree.get? other = ran₂.2.host.tree.get? other) ∧
      ran₁.2.log = [] ∧ ran₂.2.log.count .warning = 3 := by
  intro config place made desk desk₁ desk₂ number
  have habove : made.tree.get? place.tail = some .directory := by decide +kernel
  have hfree : made.tree.get? place ≠ some .directory := by decide +kernel
  have hmade : made.Sound := (Host.sound_devices.extends_ensureDirectory _).sound
  have hsets (doc : Text) := hmade.sets_put habove hfree (.file doc)
  have halike : Host.Alike number desk₁.host desk₂.host :=
    { sound := (hsets _).sound
      sound' := (hsets _).sound
      here := rfl
      root := rfl
      contents := fun other hne => by
        change (made.tree.put place _).content other = (made.tree.put place _).content other
        rw [Disk.Tree.content_put_file, Disk.Tree.content_put_file]
        exact (if_neg hne).trans (if_neg hne).symm }
  have hslot : desk₁.host.tree.slot? place = some (.object number .file) :=
    (hmade.closed.slot?_put habove hfree _ place).trans (if_pos rfl)
  obtain ⟨hleads, hstatus, hfree₁, hfree₂, hlength, hname, hran₁, hlog₂⟩ :
      desk₁.host.LeadsTo config.routerPath place ∧
        desk₁.host.linkStatus (Disk.temporary config.routerPath) = .error .noEntry ∧
        ((groundwork config false (lit "x")).runOn desk₁).2.host.linkStatus
          (Disk.temporary config.routerPath) = .error .noEntry ∧
        ((groundwork config false (lit "x")).runOn desk₂).2.host.linkStatus
          (Disk.temporary config.routerPath) = .error .noEntry ∧
        (Disk.temporary config.routerPath).length < Disk.maxPath ∧
        (Path.fileName (Disk.temporary config.routerPath)).length ≤ Disk.maxName ∧
        (((feature config false (lit "x")).runOn desk₁).1.isOk = true ∧
          ((feature config false (lit "x")).runOn desk₁).2.log = []) ∧
        ((feature config false (lit "x")).runOn desk₂).2.log.count .warning = 3 := by
    unfold feature groundwork featureDirectories featureFiles Template.Feature.directories
      Template.Feature.files Template.Feature.pagePath
    simp only [List.map_cons, List.map_nil, desk₁, desk₂, desk, made, place, config]
    repeat rw [lit_ofList]
    repeat rw [Template.sketchLine_ofList]
    decide +kernel
  have hlink := Host.not_namesLink_of_error hstatus
  have hreplaces₁ := replacesRegistry_of_free halike.sound hfree₁ hlength hname
  have hreplaces₂ := replacesRegistry_of_free halike.sound' hfree₂ hlength hname
  obtain ⟨hresult, hagree, -, -⟩ :=
    feature_ignores_registry halike hleads hslot hlink hreplaces₁ hreplaces₂
  refine ⟨⟨halike, hleads, hslot, hlink, hreplaces₁, hreplaces₂⟩, hresult.resolve_left ?_, hagree,
    hran₁.2, hlog₂⟩
  rintro ⟨fault, hfault, -⟩
  rw [hfault] at hran₁
  exact absurd hran₁.1 (by simp [Except.isOk, Except.toBool])

end FlutterScaffold.Generation
