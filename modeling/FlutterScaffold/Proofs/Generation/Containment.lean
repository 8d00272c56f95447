import FlutterScaffold.CommandLine.Program
import FlutterScaffold.Proofs.Disk.Operations
import FlutterScaffold.Proofs.Name.Distinct
import FlutterScaffold.Proofs.Path.Descent
import FlutterScaffold.Proofs.Project.Reading

/-!
# Generations stay inside of the project

A generation writes below the project directory only. Its paths are put together of three parts: a
setting, which the manifest lets through when its normal form does not climb; the snake form of a
name, which is one ordinary file name; and a path of a template, in which only the snake form is
filled in. Joined to the project directory they lead nowhere above it, and neither do the parents
that are made for them nor the sibling through which the registry is replaced
(`taskFor_stays_inside`).
-/

namespace FlutterScaffold.Generation

open Disk (ChangesBy Host Operation)
open FlutterScaffold.Path (SameDirectory Stays)
open Project (Config)
open Byte (slash)

/-- What a relative path leads to from a directory without ever climbing above it. -/
def Inside (root p : Path) : Prop := ∃ r, Stays r ∧ p = root.join r

/-- An operation on files inside of a directory, and on directories inside of it or itself. -/
structure StaysIn (root : Path) (op : Operation) : Prop where
  files : ∀ p ∈ op.files, Inside root p
  directories : ∀ p ∈ op.directories, Inside root p ∨ SameDirectory p root

/-- The settings that are paths lead nowhere above the project directory. -/
structure Contained (config : Config) : Prop where
  router : Stays config.router
  features : Stays config.features
  widgets : Stays config.widgets
  providers : Stays config.providers

/-! ## The paths of a generation -/

section Paths

variable {config : Config} {name : Name} {text : Text}

/-- What a manifest can give as a path stays inside. -/
theorem contained_of_spells (h : ∀ d ≠ .project, config.Spells d) : Contained config := by
  have hinside {value : Path} {changed : Config} {fault : Project.LineFault}
      (hok : (if Path.isInside value then .ok changed else .error fault :
        Except Project.LineFault Config).isOk) : Stays value := by
    by_cases hvalue : Path.isInside value = true
    · exact Path.stays_of_isInside hvalue
    · rw [if_neg hvalue] at hok
      exact absurd hok (by simp [Except.isOk, Except.toBool])
  exact
    { router := hinside (h .router (by decide)).isOk
      features := hinside (h .features (by decide)).isOk
      widgets := hinside (h .widgets (by decide)).isOk
      providers := hinside (h .providers (by decide)).isOk }

/-- What stays below the project directory is inside of it. -/
theorem inside_join {root r : Path} (h : Stays r) : Inside root (root.join r) := ⟨r, h, rfl⟩

/-- What stays below a path inside is inside. -/
theorem Inside.join {root p q : Path} (h : Inside root p) (hq : Stays q) :
    Inside root (p.join q) := by
  obtain ⟨r, hr, rfl⟩ := h
  exact ⟨r.join q, hr.join hq, Path.join_assoc hr.relative hq.relative⟩

/-- The snake form of a usable name, whatever bare bytes are put around it, is an ordinary name. -/
theorem stays_snake (h : Name.validate text = .ok name) {before behind : Text}
    (hbefore : slash ∉ before) (hbehind : slash ∉ behind) :
    Stays (before ++ (name.snake ++ behind)) := by
  obtain ⟨b, rest, hid, -⟩ := Name.exists_identifier_of_validate h
  obtain rfl := Name.eq_ofText_of_validate h
  have hbare : ∀ b, Name.isSnakeByte b → b ≠ slash ∧ b ≠ byte '.' := by decide +kernel
  have hall := Name.isSnakeByte_of_mem_snake text
  have hsnake : slash ∉ (Name.ofText text).snake :=
    fun hmem => (hbare slash (hall slash hmem)).1 rfl
  obtain ⟨c, hc⟩ : ∃ c, c ∈ (Name.ofText text).snake := by
    refine List.exists_mem_of_ne_nil _ fun hnil => ?_
    rw [Name.snake] at hnil
    cases hsegments : (Name.ofText text).segments with
    | nil => simp [Name.identifier, hsegments] at hid
    | cons first more =>
      rw [hsegments, Name.intercalate_cons] at hnil
      have hmem : first ∈ (Name.ofText text).segments := hsegments ▸ List.mem_cons_self ..
      exact Name.ne_nil_of_mem_segmentsOf hmem (List.append_eq_nil_iff.mp hnil).1
  exact Path.stays_of_mem (by simp [hbefore, hsnake, hbehind])
    (List.mem_append_right _ (List.mem_append_left _ hc)) (hbare c (hall c hc)).2

/-- A file name below a path that stays inside stays inside. -/
theorem stays_append_slash {directory last : Text} (h : Path.isInside directory)
    (hend : Path.fileName directory ≠ []) (hlast : Stays last) :
    Stays (directory ++ slash :: last) := by
  have hjoin := (Path.stays_of_isInside h).join hlast
  rwa [Path.join_eq hlast.relative, if_neg hend, List.append_assoc] at hjoin

/-- The snake form takes the place of its token. -/
theorem expand_snake (name : Name) (routerClass : Text) {before behind : Text}
    (hbefore : byte '{' ∉ before) (hbehind : byte '{' ∉ behind) :
    Template.expand (varsOf name routerClass)
      (before ++ (Template.opening ++ (lit "snake" ++ (Template.closing ++ behind)))) =
        before ++ (name.snake ++ behind) := by
  have hend : Template.expand (varsOf name routerClass) behind = behind :=
    Template.expand_eq_self fun hwithin =>
      hbehind (hwithin.mem (by decide : byte '{' ∈ Template.opening))
  rw [Template.expand_append_of_not_mem hbefore,
    Template.expand_token (by decide) (rfl : List.lookup _ (varsOf name routerClass) = _), hend]

/-- The files of a feature lie in its directories, and their names are made of the snake form. -/
theorem exists_path_of_mem_files (name : Name) (routerClass : Text) :
    ∀ t ∈ Template.Feature.files, ∃ above ∈ Template.Feature.directories, ∃ before behind,
      slash ∉ before ++ behind ∧ (t.fill (varsOf name routerClass)).path =
        above ++ slash :: (before ++ (name.snake ++ behind)) := by
  have hfile {template : Template} (above before behind : Text)
      (hpath : template.path = above ++ slash ::
        (before ++ (Template.opening ++ (lit "snake" ++ (Template.closing ++ behind)))))
      (habove : above ∈ Template.Feature.directories)
      (hbrace : byte '{' ∉ above ++ slash :: before ∧ byte '{' ∉ behind)
      (hslash : slash ∉ before ++ behind) :
      ∃ above ∈ Template.Feature.directories, ∃ before behind, slash ∉ before ++ behind ∧
        (template.fill (varsOf name routerClass)).path =
          above ++ slash :: (before ++ (name.snake ++ behind)) := by
    refine ⟨above, habove, before, behind, hslash, ?_⟩
    have hexpand := expand_snake name routerClass hbrace.1 hbrace.2
    rw [List.append_assoc, List.cons_append, ← hpath] at hexpand
    rw [Template.fill, hexpand, List.append_assoc, List.cons_append]
  simp only [Template.Feature.files, List.forall_mem_cons]
  refine ⟨?_, ?_, ?_, ?_, ?_, ?_, ?_, by simp⟩
  · exact hfile (lit "domain/entities") [] (lit "_entity.dart") (by decide +kernel) (by decide)
      (by decide) (by decide)
  · exact hfile (lit "data/models") [] (lit "_model.dart") (by decide +kernel) (by decide)
      (by decide) (by decide)
  · exact hfile (lit "domain/repositories") [] (lit "_repository.dart") (by decide +kernel)
      (by decide) (by decide) (by decide)
  · exact hfile (lit "data/repositories") [] (lit "_repository_impl.dart") (by decide +kernel)
      (by decide) (by decide) (by decide)
  · exact hfile (lit "domain/usecases") (lit "get_") (lit "s_usecase.dart") (by decide +kernel)
      (by decide) (by decide) (by decide)
  · exact hfile (lit "presentation/providers") [] (lit "_provider.dart") (by decide +kernel)
      (by decide) (by decide) (by decide)
  · exact hfile (lit "presentation/pages") [] (lit "_page.dart") (by decide +kernel) (by decide)
      (by decide) (by decide)

/-- The directories of a feature stay and have last names. -/
theorem isInside_of_mem_directories :
    ∀ d ∈ Template.Feature.directories, Path.isInside d ∧ Path.fileName d ≠ [] := by decide

/-- Filled with a usable name, the paths of the templates of a feature stay below its directory. -/
theorem stays_of_mem_featureFiles (h : Name.validate text = .ok name) (routerClass : Text) :
    ∀ t ∈ Template.Feature.files, Stays (t.fill (varsOf name routerClass)).path := by
  intro t ht
  obtain ⟨above, habove, before, behind, hslash, hpath⟩ :=
    exists_path_of_mem_files name routerClass t ht
  obtain ⟨hinside, hend⟩ := isInside_of_mem_directories above habove
  rw [List.mem_append, not_or] at hslash
  rw [hpath]
  exact stays_append_slash hinside hend (stays_snake h hslash.1 hslash.2)

/-- So do the paths of the templates of a single file. -/
theorem stays_of_single (h : Name.validate text = .ok name) (routerClass : Text) :
    ∀ t ∈ [Template.page, Template.widget, Template.provider],
      Stays (t.fill (varsOf name routerClass)).path := by
  have hfile {template : Template} (behind : Text)
      (hpath : template.path = Template.opening ++ (lit "snake" ++ (Template.closing ++ behind)))
      (hbrace : byte '{' ∉ behind) (hslash : slash ∉ behind) :
      Stays (template.fill (varsOf name routerClass)).path := by
    have hexpand := expand_snake name routerClass (List.not_mem_nil (a := byte '{')) hbrace
    rw [List.nil_append, ← hpath] at hexpand
    rw [Template.fill, hexpand]
    exact stays_snake h (List.not_mem_nil (a := slash)) hslash
  simp only [List.forall_mem_cons]
  refine ⟨?_, ?_, ?_, by simp⟩
  · exact hfile (lit "_page.dart") (by decide +kernel) (by decide) (by decide)
  · exact hfile (lit "_widget.dart") (by decide +kernel) (by decide) (by decide)
  · exact hfile (lit "_provider.dart") (by decide +kernel) (by decide) (by decide)

/-- The directory of a feature is inside. -/
theorem inside_featureRoot (hc : Contained config) (h : Name.validate text = .ok name) :
    Inside config.root (featureRoot config name) := by
  have hsnake := stays_snake h (List.not_mem_nil (a := slash)) (List.not_mem_nil (a := slash))
  rw [List.nil_append, List.append_nil] at hsnake
  exact (inside_join hc.features).join hsnake

/-- The files of templates below a path inside are inside. -/
theorem inside_of_mem_filesBelow {root directory : Path} {vars : Template.Vars}
    {templates : List Template} (hdirectory : Inside root directory)
    (h : ∀ t ∈ templates, Stays (t.fill vars).path) :
    ∀ p ∈ (filesBelow directory vars templates).map (·.1), Inside root p := by
  intro p hp
  rw [filesBelow, List.map_map] at hp
  obtain ⟨t, ht, rfl⟩ := List.mem_map.mp hp
  exact hdirectory.join (h t ht)

/-- The directories of a feature are inside. -/
theorem inside_of_mem_featureDirectories (hc : Contained config)
    (h : Name.validate text = .ok name) :
    ∀ p ∈ featureDirectories config name, Inside config.root p := by
  intro p hp
  obtain ⟨d, hd, rfl⟩ := List.mem_map.mp hp
  exact (inside_featureRoot hc h).join (Path.stays_of_isInside (isInside_of_mem_directories d hd).1)

end Paths

/-! ## Generations as operations -/

section Tasks

variable {config : Config} {root : Path}

/-- The parent of what is inside is inside, or the directory itself. -/
theorem Inside.parent {p : Path} (h : Inside root p) :
    Inside root p.parent ∨ SameDirectory p.parent root := by
  obtain ⟨r, hr, rfl⟩ := h
  exact (Path.parent_join hr).imp_left fun ⟨d, hd, heq⟩ => ⟨d, hd, heq⟩

/-- The sibling of a path inside is inside. -/
theorem Inside.temporary {p : Path} (h : Inside root p) : Inside root (Disk.temporary p) := by
  obtain ⟨r, hr, rfl⟩ := h
  have hlonger : Stays (r ++ lit ".boilr-tmp") :=
    hr.append (by decide) (b := byte 'b') (by decide) (by decide)
  exact ⟨_, hlonger, Path.join_append hlonger.relative hr.relative⟩

/-- Making a directory inside, or the project directory, is an operation inside. -/
theorem staysIn_ensure {p : Path} (h : Inside root p ∨ SameDirectory p root) :
    StaysIn root (.ensure p) := ⟨by simp [Operation.files],
      by simpa [Operation.directories] using h⟩

/-- Writing a path inside is an operation inside. -/
theorem staysIn_write {p : Path} (h : Inside root p) (content : Text) :
    StaysIn root (.write p content) :=
  ⟨by simpa [Operation.files] using h, by simp [Operation.directories]⟩

/-- Looking at targets changes nothing. -/
theorem changesBy_checkTargets (overwrite : Bool) (files : List Path) :
    ChangesBy Desk.host (StaysIn root) (checkTargets overwrite files) := by
  rw [checkTargets]
  split
  · refine Disk.changesBy_get.bind fun desk => ?_
    split
    · exact Disk.changesBy_throw _
    · exact Disk.changesBy_pure _
  · exact Disk.changesBy_pure _

/-- A registration writes the registry and its sibling. -/
theorem changesBy_register {registry : Path} (h : Inside root registry)
    (spec : Registry.AnchorSpec) (policy : Registry.Policy) (route : Route) :
    ChangesBy Desk.host (StaysIn root) (Registry.register registry spec policy route) := by
  have htemporary := h.temporary
  have hread : ChangesBy Desk.host (StaysIn root)
      (Task.onHost (Disk.readText registry) id : Task Disk.FileFault Text) := by
    refine Disk.changesBy_onHost _ (Disk.changesBy_get.bind fun host => ?_)
    split
    · exact Disk.changesBy_pure _
    · exact Disk.changesBy_throw _
  have hreplace (content : Text) : ChangesBy Desk.host (StaysIn root)
      (Task.onHost (Disk.replaceText registry content) id : Task Disk.FileFault Unit) := by
    refine Disk.changesBy_onHost _ (Disk.changesBy_replaceText (staysIn_ensure htemporary.parent)
      (staysIn_write htemporary content) ?_ ?_)
    · exact ⟨by simpa [Operation.files] using htemporary, by simp [Operation.directories]⟩
    · exact ⟨by simpa [Operation.files] using ⟨htemporary, h⟩, by simp [Operation.directories]⟩
  refine Disk.changesBy_get.bind fun desk => ?_
  dsimp only
  split
  · exact (Disk.changesBy_report _).bind fun _ => Disk.changesBy_pure _
  · refine hread.bind fun doc => ?_
    refine (Disk.changesBy_forM fun _ _ => Disk.changesBy_report _).bind fun _ => ?_
    split
    · exact (hreplace _).bind fun _ => Disk.changesBy_pure _
    · exact Disk.changesBy_pure _

/-- All paths of a report are inside of a directory. -/
def Report.StaysIn (root : Path) (report : Report) : Prop :=
  ∀ p ∈ report.directories ++ report.files, Inside root p

/-- A generation changes its host inside of a directory and reports paths inside of it. -/
structure Keeps (root : Path) (generation : Task Fault Report) : Prop where
  changes : ChangesBy Desk.host (StaysIn root) generation
  reports : ∀ desk report, (generation.run desk).1 = .ok report → report.StaysIn root

/-- A report that stays inside may be given back. -/
theorem keeps_return {report : Report} (h : report.StaysIn root) : Keeps root (pure report) where
  changes := Disk.changesBy_pure report
  reports := by
    intro _ reported heq
    obtain rfl := Except.ok.inj heq
    exact h

/-- Work inside of a directory goes before a generation that stays in it. -/
theorem Keeps.bind {α : Type} {work : Task Fault α} {more : α → Task Fault Report}
    (h : ChangesBy Desk.host (StaysIn root) work) (hmore : ∀ a, Keeps root (more a)) :
    Keeps root (work >>= more) where
  changes := h.bind fun a => (hmore a).changes
  reports := by
    intro desk report heq
    rw [Disk.run_bind] at heq
    rcases hrun : work.run desk with ⟨e | a, after⟩ <;> rw [hrun] at heq
    · exact absurd heq (by simp)
    · exact (hmore a).reports after report heq

/-- A generation goes on with the report of its first part. -/
theorem Keeps.report {work : Task Fault Report} {more : Report → Task Fault Report}
    (h : Keeps root work) (hmore : ∀ report, report.StaysIn root → Keeps root (more report)) :
    Keeps root (work >>= more) where
  changes := by
    intro desk
    obtain ⟨operations, hhost, hall⟩ := h.changes desk
    have hreport := h.reports desk
    rw [Disk.run_bind]
    rcases hrun : work.run desk with ⟨e | report, after⟩ <;> rw [hrun] at hhost hreport
    · exact ⟨operations, hhost, hall⟩
    · obtain ⟨later, hlater, hall'⟩ := (hmore report (hreport report rfl)).changes after
      refine ⟨operations ++ later, ?_, List.forall_mem_append.mpr ⟨hall, hall'⟩⟩
      rw [List.foldl_append, ← hhost]
      exact hlater
  reports := by
    intro desk report heq
    have hreport := h.reports desk
    rw [Disk.run_bind] at heq
    rcases hrun : work.run desk with ⟨e | first, after⟩ <;> rw [hrun] at heq hreport
    · exact absurd heq (by simp)
    · exact (hmore first (hreport first rfl)).reports after report heq

/-- A generation goes on with a name that was found usable. -/
theorem keeps_named {kind : String} {text : Text} {more : Name → Task Fault Report}
    (hmore : ∀ name, Name.validate text = .ok name → Keeps root (more name)) :
    Keeps root (named kind text >>= more) := by
  rw [named]
  split
  · rename_i name hname
    exact hmore name hname
  · exact ⟨Disk.changesBy_of_eq fun _ => rfl, by rintro _ _ ⟨⟩⟩

/-- Directories are made one after the other, and each is reported when it is there. -/
theorem ensureAll_cons (d : Path) (directories : List Path) (report : Report) :
    ensureAll (d :: directories) report =
      Task.onHost (Disk.ensureDirectory d) .file >>= fun _ =>
        ensureAll directories { report with directories := report.directories ++ [d] } := by
  simp only [ensureAll, List.foldlM_cons, bind_assoc, pure_bind]

/-- Files are written one after the other, and each is reported when it is written. -/
theorem writeAll_cons (file : Path × Text) (files : List (Path × Text)) (report : Report) :
    writeAll (file :: files) report =
      Task.onHost (Disk.writeText file.1 file.2 true) .file >>= fun _ =>
        writeAll files { report with files := report.files ++ [file.1] } := by
  simp only [writeAll, List.foldlM_cons, bind_assoc, pure_bind]

/-- Making directories inside keeps to the project directory. -/
theorem keeps_ensureAll {directories : List Path} {report : Report}
    (h : ∀ p ∈ directories, Inside root p) (hreport : report.StaysIn root) :
    Keeps root (ensureAll directories report) := by
  induction directories generalizing report with
  | nil => exact keeps_return hreport
  | cons d directories ih =>
    obtain ⟨hd, hrest⟩ := List.forall_mem_cons.mp h
    rw [ensureAll_cons]
    refine .bind (Disk.changesBy_onHost _
      (Disk.changesBy_ensureDirectory (staysIn_ensure (Or.inl hd)))) fun _ => ih hrest ?_
    simpa [Report.StaysIn, or_imp, forall_and, hd] using hreport

/-- Writing files inside keeps to the project directory. -/
theorem keeps_writeAll {files : List (Path × Text)} {report : Report}
    (h : ∀ p ∈ files.map (·.1), Inside root p) (hreport : report.StaysIn root) :
    Keeps root (writeAll files report) := by
  induction files generalizing report with
  | nil => exact keeps_return hreport
  | cons file files ih =>
    obtain ⟨hfile, hrest⟩ := List.forall_mem_cons.mp h
    rw [writeAll_cons]
    refine .bind (Disk.changesBy_onHost _
      (Disk.changesBy_writeText (staysIn_ensure hfile.parent) (staysIn_write hfile _)))
      fun _ => ih hrest ?_
    simpa [Report.StaysIn, or_imp, forall_and, hfile] using hreport

/-- The outcome of a registration joins the report. -/
theorem run_registerRoute (config : Config) (name : Name) (report : Report) (desk : Desk) :
    (registerRoute config name report).run desk =
      match (Registry.register config.routerPath config.anchors config.policy
        (featureRoute config name)).run desk with
      | (.ok outcome, after) => (.ok { report with registration := some outcome }, after)
      | (.error fault, after) => (.error (.file fault), after) := by
  rw [registerRoute, Disk.run_bind]
  simp only [show (get : Task Fault Desk).run desk = (.ok desk, desk) from rfl, Task.runOn]
  rcases (Registry.register config.routerPath config.anchors config.policy
    (featureRoute config name)).run desk with ⟨_ | _, after⟩ <;> rfl

/-- Registering a route keeps to the project directory. -/
theorem keeps_registerRoute (hc : Contained config) (name : Name) {report : Report}
    (hreport : report.StaysIn config.root) :
    Keeps config.root (registerRoute config name report) := by
  have hregister : ChangesBy Desk.host (StaysIn config.root)
      (Registry.register config.routerPath config.anchors config.policy
        (featureRoute config name)) := changesBy_register (inside_join hc.router) _ _ _
  refine ⟨fun desk => ?_, fun desk reported heq => ?_⟩
  · obtain ⟨operations, hhost, hall⟩ := hregister desk
    refine ⟨operations, ?_, hall⟩
    rw [← hhost, run_registerRoute]
    rcases (Registry.register config.routerPath config.anchors config.policy
      (featureRoute config name)).run desk with ⟨_ | _, after⟩ <;> rfl
  · rw [run_registerRoute] at heq
    generalize (Registry.register config.routerPath config.anchors config.policy
      (featureRoute config name)).run desk = ended at heq
    rcases ended with ⟨_ | outcome, after⟩
    · exact absurd heq (by simp)
    · obtain rfl := Except.ok.inj heq
      exact hreport

/-- Generating a feature keeps to the project directory. -/
theorem keeps_feature (hc : Contained config) (overwrite : Bool) (text : Text) :
    Keeps config.root (feature config overwrite text) := by
  refine keeps_named fun name hname => ?_
  have hfiles : ∀ p ∈ (featureFiles config name).map (·.1), Inside config.root p :=
    inside_of_mem_filesBelow (inside_featureRoot hc hname) (stays_of_mem_featureFiles hname _)
  have hdirectories := inside_of_mem_featureDirectories hc hname
  refine .bind (changesBy_checkTargets _ _) fun _ => ?_
  refine .report (keeps_ensureAll hdirectories (by simp [Report.StaysIn])) fun _ hmade => ?_
  exact .report (keeps_writeAll hfiles hmade) fun _ hwritten => keeps_registerRoute hc name hwritten

/-- Generating a single file keeps to the project directory. -/
theorem keeps_single (kind : String) {directory : Path} {template : Template}
    (hdirectory : Stays directory)
    (htemplate : template ∈ [Template.page, Template.widget, Template.provider])
    (overwrite : Bool) (text : Text) :
    Keeps config.root (single kind directory template config overwrite text) := by
  refine keeps_named fun name hname => ?_
  have hfiles : ∀ p ∈ (filesBelow (config.root.join directory)
      (varsOf name config.anchors.routerClass) [template]).map (·.1), Inside config.root p :=
    inside_of_mem_filesBelow (inside_join hdirectory) fun t ht =>
      List.mem_singleton.mp ht ▸ stays_of_single hname _ template htemplate
  refine .bind (changesBy_checkTargets _ _) fun _ => ?_
  exact keeps_writeAll hfiles (by simp [Report.StaysIn])

/-- Registering a feature that exists keeps to the project directory. -/
theorem keeps_registration (hc : Contained config) (text : Text) :
    Keeps config.root (registration config text) := by
  refine keeps_named fun name hname => .bind Disk.changesBy_get fun desk => ?_
  have hregister : Keeps config.root (registerRoute config name {}) :=
    keeps_registerRoute hc name (by simp [Report.StaysIn])
  dsimp only
  split
  · exact .bind (Disk.changesBy_throw _) fun _ => hregister
  · exact hregister

end Tasks

/-- The settings of a manifest, or those that hold without one, lead nowhere above the project. -/
theorem contained_of_readManifest {host : Host} {manifest root : Path} {config : Config}
    (h : Project.readManifest host manifest = .ok config ∨
      config = Project.defaults host root) : Contained config := by
  rcases h with h | rfl
  · obtain ⟨text, -, hparse⟩ := Project.parse_of_readManifest h
    exact contained_of_spells fun d hd => (Project.Manifest.spells_of_parse hparse).2 d (Or.inl hd)
  · exact contained_of_spells fun d hd => Project.Config.spells_of_default _ _ hd

/-- Under the settings of a manifest or the defaults, and whatever the policy, a generation changes
its host by operations inside of the project directory only, however it ends: the files it writes,
the registry and its sibling among them, are inside, and so are the directories it asks for, unless
it is the project directory itself. What it reports is inside too. -/
theorem taskFor_stays_inside {host : Host} {manifest root : Path} {config : Config}
    (h : Project.readManifest host manifest = .ok config ∨ config = Project.defaults host root)
    (policy : Registry.Policy) (subject : CommandLine.Subject) (overwrite : Bool) (text : Text)
    (desk : Desk) :
    let generation :=
      CommandLine.taskFor subject { config with policy := policy } overwrite text
    (∃ operations : List Operation,
      (generation.runOn desk).2.host = operations.foldl Operation.apply desk.host ∧
        ∀ op ∈ operations, StaysIn config.root op) ∧
      ∀ report, (generation.runOn desk).1 = .ok report →
        ∀ p ∈ report.directories ++ report.files, Inside config.root p := by
  have hc := contained_of_readManifest h
  have hpolicy : Contained { config with policy := policy } :=
    ⟨hc.router, hc.features, hc.widgets, hc.providers⟩
  intro generation
  have hkeeps : Keeps config.root generation := by
    cases subject with
    | project => exact keeps_feature hpolicy overwrite text
    | feature => exact keeps_feature hpolicy overwrite text
    | page => exact keeps_single "page" hpolicy.widgets (by simp) overwrite text
    | widget => exact keeps_single "widget" hpolicy.widgets (by simp) overwrite text
    | provider => exact keeps_single "provider" hpolicy.providers (by simp) overwrite text
    | route => exact keeps_registration hpolicy text
  exact ⟨hkeeps.changes desk, hkeeps.reports desk⟩

/-- Settings that go down and up again, with doubled slashes, lead nowhere above the project. -/
theorem taskFor_stays_inside_winding_settings :
    let manifest := lit "project x\nfeatures ./lib//a/../f/\nrouter x/..//./app.dart\n"
    let host : Host := { tree := ({} : Disk.Tree).put [Project.manifestName] (.file manifest) }
    let config : Config :=
      { name := lit "x"
        root := Path.dot
        features := lit "./lib//a/../f/"
        router := lit "x/..//./app.dart" }
    Project.readManifest host Project.manifestName = .ok config ∧
      let generation :=
        CommandLine.taskFor .feature { config with policy := .bestEffort } false
          (lit "user profile")
      (∃ operations : List Operation,
        (generation.runOn { host := host }).2.host = operations.foldl Operation.apply host ∧
          ∀ op ∈ operations, StaysIn config.root op) ∧
        ∀ report, (generation.runOn { host := host }).1 = .ok report →
          ∀ p ∈ report.directories ++ report.files, Inside config.root p := by
  intro manifest host config
  have hread : Project.readManifest host Project.manifestName = .ok config := by decide +kernel
  have hconfig : Project.readManifest host Project.manifestName = .ok config ∨
      config = Project.defaults host Path.dot := Or.inl hread
  exact ⟨hread, taskFor_stays_inside hconfig .bestEffort .feature false (lit "user profile")
    { host := host }⟩

end FlutterScaffold.Generation
