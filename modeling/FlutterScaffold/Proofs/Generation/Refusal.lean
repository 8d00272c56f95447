import FlutterScaffold.Proofs.Generation.Stages

/-!
# What a generation leaves alone

A generation that may not overwrite looks at its targets first and is refused, before it changes
anything, when one of them exists. Its directories are made after that, so a target that goes up
from a directory that is still missing names nothing when it is looked at and may lead to a file
when it is written. The files that stood before are safe from all targets but such ones
(`feature_spares_files`).
-/

namespace FlutterScaffold.Generation

open Disk (Host Walks)
open Project (Config)
open Byte (slash)

variable {config : Config} {name : Name} {text : Text} {desk : Desk} {host ready written : Host}

/-! ## Targets -/

/-- A path that goes down only, through no link. -/
structure Direct (host : Host) (p : Path) : Prop where
  descends : Path.dotDot ∉ Path.names (Disk.seen p)
  linkless : ∀ above target,
    above <:+ Disk.descend (Disk.startOf host.here (Disk.seen p)) (Path.names (Disk.seen p)) →
      host.tree.get? above ≠ some (.link target)

/-- Where a path that goes down only leads once directories are made, it has led before, if anything
stood there. -/
theorem Direct.finds {p : Path} {place : Disk.Place} {follow : Bool} (hdirect : Direct host p)
    (h : Prepares host ready) (hs : host.Sound) (hfinds : ready.Finds follow p place)
    (hsome : host.tree.get? place ≠ none) : host.Finds follow p place := by
  obtain ⟨hne, hlength, hwalk⟩ := Disk.Host.finds_iff.mp hfinds
  have hsteps : Path.dotDot ∉ Disk.steps (Disk.seen p) ∧ ∀ here,
      Disk.descend here (Disk.steps (Disk.seen p)) =
        Disk.descend here (Path.names (Disk.seen p)) := by
    rw [Disk.steps]
    split
    · refine ⟨?_, fun here => ?_⟩
      · rw [List.mem_append, not_or]
        exact ⟨hdirect.descends, by decide⟩
      · simp [Disk.descend]
    · rw [List.append_nil]
      exact ⟨hdirect.descends, fun _ => rfl⟩
  rw [h.here] at hwalk
  refine Disk.Host.finds_iff.mpr ⟨hne, hlength, (hwalk.of_grows hs.closed h.grows
    (h.here ▸ h.sound.reaches_startOf _) hsteps.1 fun above target hsuffix hlink => ?_).2 hsome⟩
  rw [hsteps.2] at hsuffix
  exact hdirect.linkless above target hsuffix (h.link_iff.mp hlink)

/-- A file that stood and that a missing target leads to once directories are made stands behind a
way that goes up or through a link. -/
theorem not_direct_of_leadsTo {p : Path} {place : Disk.Place} (h : Prepares host ready)
    (hs : host.Sound) (hmissing : host.exists? p = false) (hsome : host.tree.get? place ≠ none)
    (hleads : ready.LeadsTo p place) : ¬ Direct host p := fun hdirect =>
  absurd (hs.exists?_iff.mpr ⟨place, hdirect.finds h hs hleads hsome, hsome⟩) (by simp [hmissing])

/-- A link at the end of a path can come to light when directories are made, only behind a way that
goes up or through a link. -/
theorem not_direct_of_namesLink {p : Path} (h : Prepares host ready) (hs : host.Sound)
    (hlink : ¬ host.NamesLink p) {stop : Disk.Place} (hstop : ready.Names p stop) {target : Path}
    (hget : ready.tree.get? stop = some (.link target)) :
    ¬ Direct host p ∧ host.exists? p = false := by
  have hget' := h.link_iff.mp hget
  refine ⟨fun hdirect => hlink ?_, Bool.eq_false_iff.mpr fun hexists => hlink ?_⟩
  · have hnames := hdirect.finds h hs hstop (by simp [hget'])
    exact (hs.namesLink_iff hnames).mpr ⟨target, hget'⟩
  · obtain ⟨place, hleads, -⟩ := hs.exists?_iff.mp hexists
    obtain ⟨other, hother, -⟩ := hleads.exists_names hs
    obtain rfl := hstop.det (hother.of_keeps hs h.grows.keeps h.here)
    exact (hs.namesLink_iff hother).mpr ⟨target, hget'⟩

/-! ## A whole generation -/

/-- A generation that is not refused makes its directories, writes its files and registers its
route; where one of these fails, the others do not follow. -/
theorem exists_stages (hs : desk.host.Sound) (hname : Name.validate text = .ok name)
    (hfree : ((featureFiles config name).map (·.1)).find? desk.host.exists? = none) :
    let ready := ((ensureAll (featureDirectories config name) {}).run desk).2.host
    let final := ((feature config false text).run desk).2.host
    ∃ written, Fills ((featureFiles config name).map (·.1)) ready written ∧
      ∀ place, final.tree.get? place ≠ written.tree.get? place →
        written.Names config.routerPath place ∨
          written.Names (Disk.temporary config.routerPath) place ∨
          written.Affects (Disk.temporary config.routerPath) place := by
  intro ready final
  obtain ⟨hprepares, hmade⟩ := prepares_ensureAll hs (featureDirectories config name) {}
  have hrun : (feature config false text).run desk =
      (ensureAll (featureDirectories config name) {} >>= fun report =>
        writeAll (featureFiles config name) report >>= fun report =>
          registerRoute config name report).run desk := by
    rw [feature, Disk.run_bind, run_named, hname]
    dsimp only
    rw [Disk.run_bind, run_checkTargets, hfree]
  have hfinal : final = ((feature config false text).run desk).2.host := rfl
  rw [hrun, Disk.run_bind] at hfinal
  rcases hensured : (ensureAll (featureDirectories config name) {}).run desk with
    ⟨fault | made, prepared⟩
  · rw [hensured] at hfinal
    refine ⟨ready, fills_refl hprepares.sound _, fun place hne => absurd ?_ hne⟩
    rw [hfinal, show ready = prepared.host from congrArg (Desk.host ∘ Prod.snd) hensured]
  · rw [hensured] at hfinal hmade hprepares
    have hready : ready = prepared.host := congrArg (Desk.host ∘ Prod.snd) hensured
    have hfills := fills_writeAll hprepares.sound (fun file hfile => hmade made rfl _
      (parent_mem_featureDirectories hname file hfile)) made
    rw [← hready] at hfills
    dsimp only at hfinal
    rw [Disk.run_bind] at hfinal
    refine ⟨_, hfills, fun place hne => ?_⟩
    rcases hended : (writeAll (featureFiles config name) made).run prepared with
      ⟨fault | filled, written⟩
    · rw [hended] at hfinal hne
      rw [hfinal] at hne
      exact absurd rfl hne
    · rw [hended] at hfinal hne hfills
      rw [hfinal, desk_registerRoute] at hne
      exact names_of_register hfills.sound config.anchors config.policy
        (featureRoute config name) hne

/-- A generation that may not overwrite leaves everything as it was, and tells nothing, when the
name is not valid or a target exists. Whatever its result, a file that stood before keeps its bytes
unless it is the registry, its sibling or another name of that, or a missing path to write leads to
it once the directories of the feature are made, which takes a way that goes up or through a
link. -/
theorem feature_spares_files (hs : desk.host.Sound)
    (hlink : ¬ desk.host.NamesLink (Disk.temporary config.routerPath)) (text : Text) :
    let result := ((feature config false text).runOn desk).1
    let after := ((feature config false text).runOn desk).2
    (∀ fault, Name.validate text = .error fault →
      result = .error (.badName (lit "feature") text fault) ∧ after = desk) ∧
      ∀ name, Name.validate text = .ok name →
        let targets := (featureFiles config name).map (·.1)
        let ready := ((ensureAll (featureDirectories config name) {}).runOn desk).2.host
        ((∃ p ∈ targets, desk.host.exists? p) →
          ∃ p ∈ targets, desk.host.exists? p ∧
            result = .error (.file ⟨.alreadyThere, p⟩) ∧ after = desk) ∧
          ∀ place content, desk.host.tree.get? place = some (.file content) →
            after.host.tree.get? place = some (.file content) ∨
              ready.Names config.routerPath place ∨
              (∃ sibling, ready.Names (Disk.temporary config.routerPath) sibling ∧
                desk.host.tree.Shows sibling place) ∨
              ∃ p ∈ Disk.temporary config.routerPath :: targets,
                desk.host.exists? p = false ∧ ¬ Direct desk.host p ∧ ready.Affects p place := by
  intro result after
  refine ⟨fun fault hfault => ?_, fun name hname => ?_⟩
  · have hrun : (feature config false text).run desk =
        (.error (.badName (lit "feature") text fault), desk) := by
      rw [feature, Disk.run_bind, run_named, hfault]
    exact ⟨congrArg Prod.fst hrun, congrArg Prod.snd hrun⟩
  intro targets ready
  have hrefused {p : Path} (hfind : targets.find? desk.host.exists? = some p) :
      result = .error (.file ⟨.alreadyThere, p⟩) ∧ after = desk := by
    have hrun : (feature config false text).run desk =
      (.error (.file ⟨.alreadyThere, p⟩), desk) := by
      rw [feature, Disk.run_bind, run_named, hname]
      dsimp only
      rw [Disk.run_bind, run_checkTargets, hfind]
    exact ⟨congrArg Prod.fst hrun, congrArg Prod.snd hrun⟩
  cases hfind : targets.find? desk.host.exists? with
  | some p =>
    have hp := List.mem_of_find?_eq_some hfind
    refine ⟨fun _ => ⟨p, hp, List.find?_some hfind, hrefused hfind⟩, fun place content hget => ?_⟩
    exact Or.inl ((hrefused hfind).2 ▸ hget)
  | none =>
    have hmissing : ∀ p ∈ targets, desk.host.exists? p = false := fun p hp =>
      Bool.eq_false_iff.mpr (List.find?_eq_none.mp hfind p hp)
    have hnone : ¬ ∃ p ∈ targets, desk.host.exists? p := by
      rintro ⟨p, hp, hexists⟩
      simp [hmissing p hp] at hexists
    refine ⟨fun hsome => absurd hsome hnone, fun place content hget => ?_⟩
    have hsome : desk.host.tree.get? place ≠ none := by simp [hget]
    obtain ⟨hprepares, -⟩ := prepares_ensureAll hs (featureDirectories config name) {}
    obtain ⟨written, hfills, hregistered⟩ := exists_stages hs hname hfind
    have hready : ready.tree.get? place = some (.file content) :=
      (hprepares.grows place hsome).trans hget
    by_cases hwritten : written.tree.get? place = ready.tree.get? place
    · by_cases hafter : after.host.tree.get? place = written.tree.get? place
      · exact Or.inl (hafter.trans (hwritten.trans hready))
      rcases hregistered place hafter with hregistry | hsibling | haffects
      · exact Or.inr (Or.inl (hfills.names_back hregistry))
      · exact Or.inr (Or.inr (Or.inl ⟨place, hfills.names_back hsibling, Or.inl rfl⟩))
      · obtain ⟨through, hleads, hshows⟩ := hfills.affects_back haffects
        obtain ⟨stop, hstop, rfl | ⟨target, htarget⟩⟩ := hleads.exists_names hprepares.sound
        · exact Or.inr (Or.inr (Or.inl ⟨stop, hstop, hprepares.adds.shows hshows⟩))
        · obtain ⟨hdirect, habsent⟩ := not_direct_of_namesLink hprepares hs hlink hstop htarget
          exact Or.inr (Or.inr (Or.inr
            ⟨_, List.mem_cons_self, habsent, hdirect, through, hleads, hshows⟩))
    · obtain ⟨p, hp, through, hleads, hshows⟩ := hfills.frame place hwritten
      have hthrough : desk.host.tree.get? through ≠ none := by
        rwa [← (hprepares.adds.shows hshows).get?_eq]
      have hdirect := not_direct_of_leadsTo hprepares hs (hmissing p hp) hthrough hleads
      exact Or.inr (Or.inr (Or.inr
        ⟨p, List.mem_cons_of_mem _ hp, hmissing p hp, hdirect, through, hleads, hshows⟩))

/-- A feature whose directory goes up from a directory that is still missing is generated over a
file that stood in its place. -/
theorem feature_spares_files_winding_settings :
    let config : Config := { features := lit "new/.." }
    let entity : Disk.Place := [lit "x_entity.dart", lit "entities", lit "domain", lit "x"]
    let made := ((Disk.ensureDirectory (lit "x/domain/entities")).run
      { tree := .mk Disk.devices }).2
    let desk : Desk := { host := { made with tree := made.tree.put entity (.file (lit "mine")) } }
    let ready :=
      ((ensureAll (featureDirectories config (Name.ofText (lit "x"))) {}).runOn desk).2.host
    let after := ((feature config false (lit "x")).runOn desk).2
    (desk.host.Sound ∧ ¬ desk.host.NamesLink (Disk.temporary config.routerPath)) ∧
      desk.host.tree.get? entity = some (.file (lit "mine")) ∧
      after.host.tree.get? entity ≠ some (.file (lit "mine")) ∧
      ∃ p, desk.host.exists? p = false ∧ ¬ Direct desk.host p ∧ ready.Affects p entity := by
  intro config entity made desk
  have hmade : made.Sound := (Host.sound_devices.extends_ensureDirectory _).sound
  have hsets := hmade.sets_put (by decide +kernel : made.tree.get? entity.tail = some .directory)
    (by decide +kernel) (.file (lit "mine"))
  have hs : desk.host.Sound := hsets.sound
  have hstatus : desk.host.linkStatus (Disk.temporary config.routerPath) = .error .noEntry := by
    decide +kernel
  have hlink := Host.not_namesLink_of_error hstatus
  have hget : desk.host.tree.get? entity = some (.file (lit "mine")) := hsets.get?_self
  have hspared := ((feature_spares_files hs hlink (lit "x")).2 (Name.ofText (lit "x"))
    (by decide +kernel)).2 entity (lit "mine") hget
  obtain ⟨hafter, hregistry, hsibling⟩ :
      ((feature config false (lit "x")).runOn desk).2.host.tree.get? entity ≠
          some (.file (lit "mine")) ∧
        let prepared := (ensureAll (featureDirectories config (Name.ofText (lit "x"))) {}).runOn desk
        ¬ prepared.2.host.Names config.routerPath entity ∧
          Disk.locate prepared.2.host.tree prepared.2.host.here false
            (Disk.temporary config.routerPath) = .error .noEntry := by
    unfold feature featureDirectories featureFiles Template.Feature.directories
      Template.Feature.files Template.Feature.pagePath
    simp only [List.map_cons, List.map_nil, desk, made, entity, config]
    repeat rw [lit_ofList]
    repeat rw [Template.sketchLine_ofList]
    decide +kernel
  generalize (feature config false (lit "x")).runOn desk = ran at hspared hafter ⊢
  generalize
    (ensureAll (featureDirectories config (Name.ofText (lit "x"))) {}).runOn desk = prepared
    at hspared hregistry hsibling ⊢
  refine ⟨⟨hs, hlink⟩, hget, hafter, ?_⟩
  rcases hspared with hkept | hnames | ⟨sibling, hnames, -⟩ | ⟨p, -, hp⟩
  · exact absurd hkept hafter
  · exact absurd hnames hregistry
  · exact absurd (hsibling.symm.trans hnames) (by simp)
  · exact ⟨p, hp⟩

end FlutterScaffold.Generation
