import FlutterScaffold.Proofs.Generation.Stages
import FlutterScaffold.Proofs.Path.Resolution
import FlutterScaffold.Proofs.Registry.Neutrality
import FlutterScaffold.Proofs.Text.Search

/-!
# The route of a generated page

A feature writes its page below the directory of the feature (`page_of_feature`) and registers it by
a path that is counted out from the directory of the registry. Followed from there, the import ends
at the page that was written, wherever the settings put the two, and the class that the entry of the
route builds is the one class that the page declares (`featureRoute_leads_to_page`).
-/

namespace FlutterScaffold

open Byte (newline)

/-! ## The classes of a source text -/

namespace Dart

/-- The class that a line declares from its start. -/
def declaredClass? (line : Text) : Option Text :=
  (Text.after? (lit "class ") line).map (·.takeWhile Byte.isIdentifier)

/-- The classes that a text declares, each from the start of a line. -/
def classes (text : Text) : List Text := (Text.lines text).filterMap declaredClass?

theorem classes_append_cons (a b : Text) :
    classes (a ++ newline :: b) = classes a ++ classes b := by
  rw [classes, Text.lines, Text.cut_append_cons, List.filterMap_append]
  rfl

theorem classes_line {line : Text} (h : newline ∉ line) :
    classes line = (declaredClass? line).toList := by
  rw [classes, Text.lines, Text.cut_eq_singleton h]
  cases hclass : declaredClass? line <;> simp [hclass]

end Dart

namespace Template

/-- What stands before a token is kept as long as no brace of it can open one. -/
theorem expand_append_of_closed {vars : Vars} {before : Text} (h : ¬ opening <:+: before)
    (hend : before.getLast? ≠ some (byte '{')) (t : Text) :
    expand vars (before ++ t) = before ++ expand vars t := by
  induction before with
  | nil => rfl
  | cons b before ih =>
    rw [List.infix_cons_iff, not_or] at h
    have hlast : before.getLast? ≠ some (byte '{') := by
      cases before with
      | nil => simp
      | cons c before => simpa using hend
    have hafter : Text.after? opening (b :: (before ++ t)) = none := by
      rw [Text.after?, if_neg]
      rw [List.isPrefixOf_iff_prefix]
      intro hprefix
      obtain ⟨rfl, hmore⟩ := List.cons_prefix_cons.mp hprefix
      cases before with
      | nil => exact hend rfl
      | cons c before =>
        obtain ⟨rfl, -⟩ := List.cons_prefix_cons.mp hmore
        exact h.1 (by simp [opening])
    have hkey : key? (b :: (before ++ t)) = none := by simp [key?, hafter]
    rw [List.cons_append, expand_cons hkey, ih h.2 hlast, List.cons_append]

/-- A sketched line is filled on its own, and declares the given classes then. -/
def Declares (vars : Vars) (line : String) (declared : List Text) : Prop :=
  ∃ filled, newline ∉ filled ∧ Dart.classes filled = declared ∧
    ∀ more, expand vars (sketchLine line ++ newline :: more) = filled ++ newline :: expand vars more

/-- A line without a token declares what it says itself. -/
theorem declares_closed (vars : Vars) {line : String} (h : ¬ opening <:+: sketchLine line)
    (hline : newline ∉ sketchLine line) :
    Declares vars line (Dart.declaredClass? (sketchLine line)).toList := by
  refine ⟨sketchLine line, hline, Dart.classes_line hline, fun more => ?_⟩
  have hclosed : ¬ opening <:+: sketchLine line ++ [newline] := by
    rw [Text.infix_append_cons_iff (by decide)]
    simpa using ⟨h, by decide⟩
  rw [← List.singleton_append, ← List.append_assoc,
    expand_append_of_closed hclosed (by simpa using (by decide : newline ≠ byte '{'))]
  simp

/-- A line with one token declares what it says with the value in its place. -/
theorem declares_token {vars : Vars} {line : String} {before key value behind : Text}
    (hline : sketchLine line = before ++ (opening ++ (key ++ (closing ++ behind))))
    (hbefore : byte '{' ∉ before) (hbehind : ¬ opening <:+: behind) (hkey : byte '}' ∉ key)
    (hvalue : vars.lookup key = some value) (h : newline ∉ before ++ (value ++ behind)) :
    Declares vars line (Dart.declaredClass? (before ++ (value ++ behind))).toList := by
  refine ⟨before ++ (value ++ behind), h, Dart.classes_line h, fun more => ?_⟩
  have hclosed : ¬ opening <:+: behind ++ [newline] := by
    rw [Text.infix_append_cons_iff (by decide)]
    simpa using ⟨hbehind, by decide⟩
  have hend : expand vars (behind ++ newline :: more) = behind ++ newline :: expand vars more := by
    rw [← List.singleton_append, ← List.append_assoc,
      expand_append_of_closed hclosed (by simpa using (by decide : newline ≠ byte '{'))]
    simp
  rw [hline]
  simp only [List.append_assoc]
  rw [expand_append_of_not_mem hbefore, expand_token hkey hvalue, hend]

/-- The classes of filled lines are those that the lines declare. -/
theorem classes_expand_sketch {vars : Vars} {content : List String} {declared : List (List Text)}
    (h : List.Forall₂ (Declares vars) content declared) :
    Dart.classes (expand vars (sketch content)) = declared.flatten := by
  induction h with
  | nil => rfl
  | @cons line first content more hline _ ih =>
    obtain ⟨filled, hfilled, hclasses, hexpand⟩ := hline
    have hsketch : sketch (line :: content) = sketchLine line ++ newline :: sketch content := by
      simp [sketch]
    rw [hsketch, hexpand, Dart.classes_append_cons, hclasses, ih, List.flatten_cons]

end Template

namespace Generation

open Project (Config)
open Byte (slash)
open FlutterScaffold.Path (Bare Ordinary Stays resolve?)

variable {config : Config} {name : Name} {text : Text}

/-- The line that opens the class of a page names it after the type. -/
theorem declaredClass?_page {type : Text} (h : ∀ b ∈ type, Byte.isAlnum b) :
    Dart.declaredClass? (lit "class " ++
      (type ++ Template.sketchLine "Page extends ConsumerWidget ⟦")) =
        some (type ++ lit "Page") := by
  rw [Dart.declaredClass?, Text.after?_eq_some_iff.mpr rfl, Option.map_some,
    List.takeWhile_append_of_pos fun b hb => Byte.isIdentifier_of_isAlnum b (h b hb)]
  rfl

/-- The page of a feature declares one class, which is named after the feature. A line without a
token declares what it says itself. -/
theorem classes_page (h : Name.validate text = .ok name) (routerClass : Text) :
    Dart.classes (Template.expand (varsOf name routerClass) Template.Feature.page) =
      [name.typeName ++ lit "Page"] := by
  obtain rfl := Name.eq_ofText_of_validate h
  have halnum := Name.isAlnum_of_mem_typeName text
  have hnewline : newline ∉ (Name.ofText text).typeName := fun hmem =>
    absurd (halnum newline hmem) (by decide)
  have hclosed (line : String) (h : ¬ Template.opening <:+: Template.sketchLine line ∧
      newline ∉ Template.sketchLine line ∧ Dart.declaredClass? (Template.sketchLine line) = none) :
      Template.Declares (varsOf (Name.ofText text) routerClass) line [] := by
    simpa [h.2.2] using Template.declares_closed _ h.1 h.2.1
  have htoken (line before behind : String) (hline : Template.sketchLine line =
        lit before ++ (Template.opening ++
          (lit "Type" ++ (Template.closing ++ Template.sketchLine behind))))
      (h : byte '{' ∉ lit before ∧ ¬ Template.opening <:+: Template.sketchLine behind ∧
        newline ∉ lit before ++ Template.sketchLine behind) :=
    Template.declares_token hline h.1 h.2.1 (by decide)
      (rfl : (varsOf (Name.ofText text) routerClass).lookup (lit "Type") = _)
      (by simpa [not_or, hnewline] using h.2.2)
  have hdeclaring := htoken "class ⟦⟦Type⟧⟧Page extends ConsumerWidget ⟦" "class "
    "Page extends ConsumerWidget ⟦" (by decide +kernel) (by decide +kernel)
  rw [declaredClass?_page halnum] at hdeclaring
  have hlines :=
    List.Forall₂.cons (hclosed "import 'package:flutter/material.dart';" (by decide +kernel)) <|
    .cons (hclosed "import 'package:flutter_riverpod/flutter_riverpod.dart';"
      (by decide +kernel)) <|
    .cons (hclosed "" (by decide +kernel)) <|
    .cons hdeclaring <|
    .cons (htoken "  const ⟦⟦Type⟧⟧Page(⟦super.key⟧);" "  const " "Page(⟦super.key⟧);"
      (by decide +kernel) (by decide +kernel)) <|
    .cons (hclosed "" (by decide +kernel)) <|
    .cons (hclosed "  @override" (by decide +kernel)) <|
    .cons (hclosed "  Widget build(BuildContext context, WidgetRef ref) ⟦" (by decide +kernel)) <|
    .cons (hclosed "    return Scaffold(" (by decide +kernel)) <|
    .cons (hclosed "      appBar: AppBar(" (by decide +kernel)) <|
    .cons (htoken "        title: const Text('⟦⟦Type⟧⟧s')," "        title: const Text('" "s'),"
      (by decide +kernel) (by decide +kernel)) <|
    .cons (hclosed "      )," (by decide +kernel)) <|
    .cons (hclosed "      body: const Center(" (by decide +kernel)) <|
    .cons (htoken "        child: Text('⟦⟦Type⟧⟧ Page')," "        child: Text('" " Page'),"
      (by decide +kernel) (by decide +kernel)) <|
    .cons (hclosed "      )," (by decide +kernel)) <|
    .cons (hclosed "    );" (by decide +kernel)) <|
    .cons (hclosed "  ⟧" (by decide +kernel)) <|
    .cons (hclosed "⟧" (by decide +kernel)) .nil
  rw [Template.Feature.page, Template.classes_expand_sketch hlines]
  rfl

/-! ## The path of the page -/

theorem expand_pagePath (name : Name) (routerClass : Text) :
    Template.expand (varsOf name routerClass) Template.Feature.pagePath =
      lit "presentation/pages" ++ slash :: (name.snake ++ lit "_page.dart") := by
  have hpath : Template.Feature.pagePath = lit "presentation/pages/" ++ (Template.opening ++
      (lit "snake" ++ (Template.closing ++ lit "_page.dart"))) := by decide +kernel
  rw [hpath, expand_snake name routerClass (by decide) (by decide)]
  rfl

theorem stays_pagePath (h : Name.validate text = .ok name) :
    Stays (lit "presentation/pages" ++ slash :: (name.snake ++ lit "_page.dart")) := by
  have hfile : Stays (name.snake ++ lit "_page.dart") := by
    simpa using stays_snake h (List.not_mem_nil (a := slash)) (by decide : slash ∉ lit "_page.dart")
  exact stays_append_slash (by decide) (by decide) hfile

/-- The page of a feature lies below its directory, wherever that lies below its start, and its
normal form leads there too. The file's own name is ordinary and the last one, so the normal form
keeps it. -/
theorem pageBelow_spec (config : Config) {root : Path} (hroot : Stays root)
    (h : Name.validate text = .ok name) :
    (pageBelow config root name).isAbsolute = false ∧ (pageBelow config root name).normal.Bare ∧
      Ordinary (pageBelow config root name).normal.names ∧
      resolve? [] (pageBelow config root name).names =
        some (pageBelow config root name).normal.names := by
  have hpath := stays_pagePath h
  have hsnake : slash ∉ name.snake := by
    obtain rfl := Name.eq_ofText_of_validate h
    exact fun hmem => absurd (Name.isSnakeByte_of_mem_snake text slash hmem) (by decide)
  have hslash : slash ∉ name.snake ++ lit "_page.dart" := by
    rw [List.mem_append, not_or]
    exact ⟨hsnake, by decide⟩
  have hordinary : Path.isOrdinary (name.snake ++ lit "_page.dart") := by
    have hlast : byte 'p' ∈ name.snake ++ lit "_page.dart" := List.mem_append_right _ (by decide)
    refine Path.isOrdinary_iff.mpr ⟨List.ne_nil_of_mem hlast, ?_, ?_⟩ <;>
      exact fun heq => absurd (heq ▸ hlast) (by decide)
  rw [pageBelow, expand_pagePath]
  have hstays := hroot.join hpath
  have hname : Path.fileName (root.join (lit "presentation/pages" ++
      slash :: (name.snake ++ lit "_page.dart"))) = name.snake ++ lit "_page.dart" := by
    rw [Path.join_eq hpath.relative, ← List.append_assoc, Path.fileName_append_slash hslash]
  have hkept : Path.normalNames false (root.join (lit "presentation/pages" ++
      slash :: (name.snake ++ lit "_page.dart"))).names ≠ [] := by
    rw [Path.names_join hpath.relative, Path.names_append_slash,
      Path.names_of_not_mem hslash (Path.isOrdinary_iff.mp hordinary).1, ← List.append_assoc,
      Path.normalNames_concat hordinary]
    simp
  obtain ⟨hbare, hnames⟩ := hstays.bare_normal (by rwa [hname]) hkept
  rw [hnames]
  exact ⟨hstays.relative, hbare, hstays.resolve?_names.2, hstays.resolve?_names.1⟩

/-- The page is reached from the project directory by the path that is registered. -/
theorem pageBelow_featureRoot (hfeatures : Stays config.features)
    (hname : Name.validate text = .ok name) :
    pageBelow config (featureRoot config name) name =
      config.root.join (pageBelow config (config.features.join name.snake) name) := by
  have hsnake := stays_snake hname (List.not_mem_nil (a := slash)) (List.not_mem_nil (a := slash))
  rw [List.nil_append, List.append_nil] at hsnake
  have hrelative := (stays_pagePath hname).relative
  rw [← expand_pagePath name config.anchors.routerClass] at hrelative
  rw [pageBelow, featureRoot, Path.join_assoc hfeatures.relative hsnake.relative, Path.join_assoc
    ((Path.isAbsolute_join hsnake.relative).trans hfeatures.relative) hrelative]
  rfl

/-! ## The page that was written -/

section Success

variable {overwrite : Bool} {desk after : Desk} {report : Report}

/-- A registration keeps the files that are reported. -/
theorem files_of_registerRoute {made : Report}
    (h : (registerRoute config name made).run desk = (.ok report, after)) :
    report.files = made.files := by
  rw [run_registerRoute] at h
  rcases hrun : (Registry.register config.routerPath config.anchors config.policy
    (featureRoute config name)).run desk with ⟨fault | outcome, final⟩ <;> rw [hrun] at h
  · exact absurd (congrArg Prod.fst h) (by simp)
  · exact (Except.ok.inj (congrArg Prod.fst h)) ▸ rfl

section Feature

variable (hname : Name.validate text = .ok name)
  (h : (feature config overwrite text).run desk = (.ok report, after))
include hname h

/-- A feature that is generated is made and written first, and registered then. -/
theorem exists_groundwork_of_feature :
    ∃ made written, (groundwork config overwrite text).run desk = (.ok (name, made), written) ∧
      (registerRoute config name made).run written = (.ok report, after) := by
  rw [feature_eq] at h
  obtain ⟨⟨found, made⟩, written, hwritten, hregistered⟩ := Disk.exists_of_run_bind_eq_ok h
  obtain rfl := Except.ok.inj ((exists_of_run_groundwork hwritten).1.symm.trans hname)
  exact ⟨made, written, hwritten, hregistered⟩

/-- A generation that succeeds reports the files of the feature. -/
theorem files_of_feature : report.files = (featureFiles config name).map (·.1) := by
  obtain ⟨made, written, hwritten, hregistered⟩ := exists_groundwork_of_feature hname h
  rw [files_of_registerRoute hregistered, report_of_groundwork hwritten]

/-- A generation that succeeds has written the page, to the place that its path leads to once the
directories are made. It stands there in the end, unless a device took the bytes or the place is one
that the registration touched after that. -/
theorem page_of_feature (hs : desk.host.Sound) :
    let ready := ((ensureAll (featureDirectories config name) {}).runOn desk).2.host
    ∃ place, ready.LeadsTo (pageBelow config (featureRoot config name) name) place ∧
      (after.host.tree.get? place = some (.file
          (Template.expand (varsOf name config.anchors.routerClass) Template.Feature.page)) ∨
        (∃ device, ready.tree.get? place = some (.device device)) ∨
        ready.Names config.routerPath place ∨
        ready.Names (Disk.temporary config.routerPath) place ∨
        ready.Affects (Disk.temporary config.routerPath) place) := by
  obtain ⟨made, written, hwritten, hregistered⟩ := exists_groundwork_of_feature hname h
  obtain ⟨-, hfills, place, hleads, hpage⟩ := exists_of_groundwork hwritten hs
  refine ⟨place, hleads, ?_⟩
  by_cases hkept : after.host.tree.get? place = written.host.tree.get? place
  · rw [hkept]
    exact hpage.imp_right Or.inl
  · have hafter : after = _ :=
      (congrArg Prod.snd hregistered).symm.trans (desk_registerRoute config name made written)
    rw [hafter] at hkept
    refine Or.inr (Or.inr ?_)
    exact (names_of_register hfills.sound _ _ _ hkept).imp hfills.names_back
      (Or.imp hfills.names_back hfills.affects_back)

end Feature

end Success

/-! ## The route to the page -/

/-- Under the settings of a manifest or the defaults, followed name by name from the directory of
the registry, the import of the route to a feature leads to the page of the feature, and the page
declares one class, which is the one that the entry of the route builds. A generation that succeeds
reports the page and has written it: it stands where its path leads once the directories are made,
unless a device took the bytes or the registry or its sibling has that place. -/
theorem featureRoute_leads_to_page {host : Disk.Host} {manifest root : Path}
    (hconfig : Project.readManifest host manifest = .ok config ∨
      config = Project.defaults host root) (hname : Name.validate text = .ok name) :
    let route := featureRoute config name
    let page := pageBelow config (config.features.join name.snake) name
    let registry := config.router.normal.parent
    page.isAbsolute = false ∧ resolve? [] page.names = some page.normal.names ∧
      Path.isAbsolute route.importPath = false ∧
      resolve? registry.names (Path.names route.importPath) = some page.normal.names ∧
      (∀ overwrite desk report,
        ((feature config overwrite text).runOn desk).1 = .ok report →
          config.root.join page ∈ report.files) ∧
      ∃ body, (config.root.join page, body) ∈ featureFiles config name ∧
        Dart.classes body = [route.widget] ∧
        lit "  builder: (context, state) => const " ++ route.widget ++ lit "()," ∈
          Registry.entryLines config.anchors route ∧
        ∀ overwrite desk report after, desk.host.Sound →
          (feature config overwrite text).runOn desk = (.ok report, after) →
            let ready := ((ensureAll (featureDirectories config name) {}).runOn desk).2.host
            ∃ place, ready.LeadsTo (config.root.join page) place ∧
              (after.host.tree.get? place = some (.file body) ∨
                (∃ device, ready.tree.get? place = some (.device device)) ∨
                ready.Names config.routerPath place ∨
                ready.Names (Disk.temporary config.routerPath) place ∨
                ready.Affects (Disk.temporary config.routerPath) place) := by
  intro route page registry
  have hc := contained_of_readManifest hconfig
  have hsnake := stays_snake hname (List.not_mem_nil (a := slash)) (List.not_mem_nil (a := slash))
  rw [List.nil_append, List.append_nil] at hsnake
  obtain ⟨hrelative, hbare, hordinary, hresolve⟩ :=
    pageBelow_spec config (hc.features.join hsnake) hname
  obtain ⟨hdirectory, hdirectories⟩ := hc.router.directory_spec
  have himport : route.importPath = (if registry.isEmpty then page.normal
      else page.normal.relativeTo registry).generic := rfl
  have hleads : Path.isAbsolute route.importPath = false ∧
      resolve? registry.names (Path.names route.importPath) = some page.normal.names := by
    rw [himport, Path.isAbsolute_generic, Path.names_generic]
    split
    · rename_i hempty
      rw [List.isEmpty_iff.mp hempty]
      exact ⟨hbare.relative, Path.resolve?_ordinary [] hordinary⟩
    · exact Path.resolve?_relativeTo hbare hdirectory hordinary hdirectories
  have hroot : pageBelow config (featureRoot config name) name = config.root.join page :=
    pageBelow_featureRoot hc.features hname
  have hpage : (config.root.join page,
      Template.expand (varsOf name config.anchors.routerClass) Template.Feature.page) ∈
        featureFiles config name := by
    obtain ⟨before, hfiles⟩ := exists_featureFiles_eq_concat config name
    rw [hfiles, hroot]
    exact List.mem_append_right _ (List.mem_singleton_self _)
  refine ⟨hrelative, hresolve, hleads.1, hleads.2, fun overwrite desk report hok => ?_, _,
    hpage, classes_page hname _, by simp [Registry.entryLines],
      fun overwrite desk report after hs h =>
      hroot ▸ page_of_feature hname h hs⟩
  rw [files_of_feature hname (Prod.ext hok rfl)]
  exact List.mem_map_of_mem hpage

/-- The registry and the features share a directory, which winding settings reach by two ways; the
page is written there. -/
theorem featureRoute_leads_to_page_winding_settings :
    let manifest := lit "project x\nfeatures ./lib//a/../f/\nrouter lib/./nav/x/..//app.dart\n"
    let host : Disk.Host :=
      { tree := (Disk.Tree.mk Disk.devices).put [Project.manifestName] (.file manifest) }
    let config : Config :=
      { name := lit "x"
        root := Path.dot
        features := lit "./lib//a/../f/"
        router := lit "lib/./nav/x/..//app.dart" }
    let name := Name.ofText (lit "user profile")
    let route := featureRoute config name
    let page := pageBelow config (config.features.join name.snake) name
    let registry := config.router.normal.parent
    let ready := ((ensureAll (featureDirectories config name) {}).runOn { host := host }).2.host
    let ran := (feature config false (lit "user profile")).runOn { host := host }
    (Project.readManifest host Project.manifestName = .ok config ∧
      Name.validate (lit "user profile") = .ok name ∧
      registry = lit "lib/nav" ∧
      route.importPath = lit "../f/user_profile/presentation/pages/user_profile_page.dart") ∧
      page.isAbsolute = false ∧ resolve? [] page.names = some page.normal.names ∧
      Path.isAbsolute route.importPath = false ∧
      resolve? registry.names (Path.names route.importPath) = some page.normal.names ∧
      (∀ overwrite desk report,
        ((feature config overwrite (lit "user profile")).runOn desk).1 = .ok report →
          config.root.join page ∈ report.files) ∧
      ∃ body, (config.root.join page, body) ∈ featureFiles config name ∧
        Dart.classes body = [route.widget] ∧
        lit "  builder: (context, state) => const " ++ route.widget ++ lit "()," ∈
          Registry.entryLines config.anchors route ∧
        ∃ place, ready.LeadsTo (config.root.join page) place ∧
          ran.2.host.tree.get? place = some (.file body) := by
  intro manifest host config name
  have hread : Project.readManifest host Project.manifestName = .ok config := by
    simp only [host, config, manifest]
    repeat rw [lit_ofList]
    decide +kernel
  have hconfig : Project.readManifest host Project.manifestName = .ok config ∨
      config = Project.defaults host Path.dot := Or.inl hread
  have hname : Name.validate (lit "user profile") = .ok name := by decide +kernel
  have hs : host.Sound := (Disk.Host.sound_devices.sets_put (by decide +kernel) (by decide +kernel)
    (.file manifest)).sound
  have hran : ((feature config false (lit "user profile")).runOn { host := host }).1.isOk = true ∧
      (let ready := ((ensureAll (featureDirectories config name) {}).runOn { host := host }).2.host
      Disk.locate ready.tree ready.here false config.routerPath = .error .noEntry ∧
        (Disk.locate ready.tree ready.here false (Disk.temporary config.routerPath) =
            .error .noEntry ∧
          Disk.locate ready.tree ready.here true (Disk.temporary config.routerPath) =
            .error .noEntry) ∧
        (Disk.locate ready.tree ready.here true (config.root.join
          (pageBelow config (config.features.join name.snake) name))).map (·.entry) =
            .ok none) := by
    unfold feature featureDirectories featureFiles Template.Feature.directories
      Template.Feature.files pageBelow Template.Feature.pagePath
    simp only [List.map_cons, List.map_nil, host, config, name, manifest]
    repeat rw [lit_ofList]
    repeat rw [Template.sketchLine_ofList]
    decide +kernel
  obtain ⟨hok, hregistry, ⟨hsibling, hthrough⟩, hmissing⟩ := hran
  obtain ⟨hrelative, hresolve, himport, hleads, hfiles, body, hbody, hclasses, hbuilder,
    hwritten⟩ :=
    featureRoute_leads_to_page hconfig hname
  have hpage := hwritten false { host := host }
  generalize (feature config false (lit "user profile")).runOn { host := host } = ran at hok hpage ⊢
  generalize ((ensureAll (featureDirectories config name) {}).runOn { host := host }).2.host = ready
    at hregistry hsibling hthrough hmissing hpage ⊢
  rcases ran with ⟨fault | report, after⟩
  · exact absurd hok (by simp [Except.isOk, Except.toBool])
  refine ⟨⟨hread, hname, by decide +kernel, by decide +kernel⟩, hrelative, hresolve, himport,
    hleads,
    hfiles, body, hbody, hclasses, hbuilder, ?_⟩
  obtain ⟨place, hplace, hfile | ⟨device, hdevice⟩ | hnames | hnames | ⟨through, haffects, -⟩⟩ :=
    hpage report after hs rfl
  · exact ⟨place, hplace, hfile⟩
  · rw [show Disk.locate _ _ _ _ = _ from hplace] at hmissing
    exact absurd (Except.ok.inj hmissing) (by simp [hdevice])
  · exact absurd (hregistry.symm.trans hnames) (by simp)
  · exact absurd (hsibling.symm.trans hnames) (by simp)
  · exact absurd (hthrough.symm.trans haffects) (by simp)

end Generation

end FlutterScaffold
