import FlutterScaffold.Proofs.Disk.Replacement
import FlutterScaffold.Proofs.Generation.Containment
import FlutterScaffold.Proofs.Registry.Registration

/-!
# The stages of a generation

The directories of a feature are made, its files are written, and its route is registered.
Directories are added and nothing else changes (`Prepares`), files are written where their paths
lead (`Fills`), and the registration touches the registry and its sibling (`names_of_register`).
Where all goes well up to the registration, the page has been written last (`exists_of_groundwork`).
-/

namespace FlutterScaffold.Generation

open Disk (Host)
open Project (Config)
open Byte (slash)

variable {config : Config} {overwrite : Bool} {name : Name} {text : Text} {desk : Desk}
  {host ready written : Host}

/-! ## Making directories -/

/-- Directories are new, and nothing else. -/
structure Prepares (host ready : Host) : Prop where
  sound : ready.Sound
  here : ready.here = host.here
  grows : host.tree.Grows ready.tree
  adds : host.tree.Adds ready.tree
  directories : ∀ place, ready.tree.get? place ≠ host.tree.get? place →
    ready.tree.get? place = some .directory

/-- A host is prepared as it is. -/
theorem prepares_refl (hs : host.Sound) : Prepares host host :=
  ⟨hs, rfl, fun _ _ => rfl, .refl _, fun _ hne => absurd rfl hne⟩

/-- Directories may be made in several stages. -/
theorem Prepares.trans {later : Host} (h : Prepares host ready) (h' : Prepares ready later) :
    Prepares host later where
  sound := h'.sound
  here := h'.here.trans h.here
  grows := h.grows.trans h'.grows
  adds := h.adds.trans h'.adds
  directories place hne := by
    by_cases hlater : later.tree.get? place = ready.tree.get? place
    · rw [hlater] at hne ⊢
      exact h.directories place hne
    · exact h'.directories place hlater

/-- A directory stays one when others are made. -/
theorem Prepares.isDirectory (h : Prepares host ready) (hs : host.Sound) {d : Path}
    (hd : host.isDirectory d) : ready.isDirectory d :=
  hs.isDirectory_of_keeps h.sound h.grows.keeps h.here hd

/-- New directories are no links. -/
theorem Prepares.link_iff (h : Prepares host ready) {place : Disk.Place} {target : Path} :
    ready.tree.get? place = some (.link target) ↔ host.tree.get? place = some (.link target) := by
  refine ⟨fun hlink => ?_, h.grows.keeps.links place target⟩
  refine Classical.byContradiction fun hne => ?_
  have hdirectory := h.directories place (by rw [hlink]; exact Ne.symm hne)
  simp [hlink] at hdirectory

/-- Making directories makes nothing else, however it ends; when it succeeds, they are all there. -/
theorem prepares_ensureAll (hs : desk.host.Sound) (directories : List Path) (report : Report) :
    Prepares desk.host ((ensureAll directories report).run desk).2.host ∧
      ∀ made, ((ensureAll directories report).run desk).1 = .ok made → ∀ d ∈ directories,
        d = [] ∨ ((ensureAll directories report).run desk).2.host.isDirectory d := by
  induction directories generalizing desk report with
  | nil => exact ⟨prepares_refl hs, fun _ _ _ hd => absurd hd List.not_mem_nil⟩
  | cons d directories ih =>
    have hextends := hs.extends_ensureDirectory d
    have hfirst : Prepares desk.host ((Disk.ensureDirectory d).run desk.host).2 :=
      ⟨hextends.sound, hextends.here, hextends.grows, hextends.adds,
        fun place hne => (hextends.directories place hne).1⟩
    rw [ensureAll_cons, Disk.run_bind, Disk.run_onHost]
    rcases hended : (Disk.ensureDirectory d).run desk.host with ⟨fault | _, ready⟩ <;>
      rw [hended] at hfirst
    · exact ⟨hfirst, fun _ hok => absurd hok (by simp)⟩
    · obtain ⟨hrest, hall⟩ := @ih { desk with host := ready } hfirst.sound
        { report with directories := report.directories ++ [d] }
      refine ⟨hfirst.trans hrest, fun made hok => List.forall_mem_cons.mpr ⟨?_, hall made hok⟩⟩
      by_cases hd : d = []
      · exact Or.inl hd
      · exact Or.inr (hrest.isDirectory hfirst.sound
          (Disk.Host.isDirectory_of_ensureDirectory hended hd))

/-- The directories that were made are the ones that are reported. -/
theorem report_of_ensureAll {directories : List Path} {report made : Report} {after : Desk}
    (h : (ensureAll directories report).run desk = (.ok made, after)) :
    made = { report with directories := report.directories ++ directories } := by
  induction directories generalizing desk report with
  | nil =>
    rw [List.append_nil]
    exact (Except.ok.inj (congrArg Prod.fst h)).symm
  | cons d directories ih =>
    rw [ensureAll_cons] at h
    obtain ⟨_, between, -, hrest⟩ := Disk.exists_of_run_bind_eq_ok h
    simpa using ih hrest

/-! ## Writing files -/

/-- Only what paths lead to is written, and all ways stay as they are. -/
structure Fills (paths : List Path) (ready written : Host) : Prop where
  sound : written.Sound
  here : written.here = ready.here
  adds : ready.tree.Adds written.tree
  /-- What is no file was there already. -/
  back : ∀ place entry, (∀ content, entry ≠ .file content) →
    written.tree.get? place = some entry → ready.tree.get? place = some entry
  frame : ∀ place, written.tree.get? place ≠ ready.tree.get? place →
    ∃ p ∈ paths, ready.Affects p place

section Fills

variable {paths : List Path} (h : Fills paths ready written)
include h

/-- The ways are those that there were before. -/
theorem Fills.keeps_back : written.tree.Keeps ready.tree where
  directories place hplace := h.back place .directory (by simp) hplace
  links place target hplace := h.back place (.link target) (by simp) hplace

/-- A path leads where it led before the files were written. -/
theorem Fills.leadsTo_back {p : Path} {place : Disk.Place} (hleads : written.LeadsTo p place) :
    ready.LeadsTo p place :=
  hleads.of_keeps h.sound h.keeps_back h.here.symm fun target hlink =>
    absurd (h.adds.keeps.links place target hlink) (hleads.not_link target)

/-- A path names what it named before the files were written. -/
theorem Fills.names_back {p : Path} {place : Disk.Place} (hnames : written.Names p place) :
    ready.Names p place := hnames.of_keeps h.sound h.keeps_back h.here.symm

/-- What is written to a path shows where it would have shown before. -/
theorem Fills.affects_back {p : Path} {place : Disk.Place} (haffects : written.Affects p place) :
    ready.Affects p place := by
  obtain ⟨through, hleads, hshows⟩ := haffects
  exact ⟨through, h.leadsTo_back hleads, h.adds.shows hshows⟩

/-- Files may be written one after the other. -/
theorem Fills.trans {more : List Path} {later : Host} (h' : Fills more written later) :
    Fills (paths ++ more) ready later where
  sound := h'.sound
  here := h'.here.trans h.here
  adds := h.adds.trans h'.adds
  back place entry hentry hplace :=
    h.back place entry hentry (h'.back place entry hentry hplace)
  frame place hne := by
    by_cases hlater : later.tree.get? place = written.tree.get? place
    · rw [hlater] at hne
      obtain ⟨p, hp, haffects⟩ := h.frame place hne
      exact ⟨p, List.mem_append_left _ hp, haffects⟩
    · obtain ⟨p, hp, haffects⟩ := h'.frame place hlater
      exact ⟨p, List.mem_append_right _ hp, h.affects_back haffects⟩

/-- A directory stays one when files are written. -/
theorem Fills.isDirectory (hs : ready.Sound) {d : Path} (hd : ready.isDirectory d) :
    written.isDirectory d := hs.isDirectory_of_keeps h.sound h.adds.keeps h.here hd

end Fills

/-- Where nothing is written nothing has changed. -/
theorem fills_refl (hs : host.Sound) (paths : List Path) : Fills paths host host :=
  ⟨hs, rfl, .refl _, fun _ _ _ hplace => hplace, fun _ hne => absurd rfl hne⟩

/-- Bytes that are written fill the file that their path leads to. -/
theorem fills_of_writes {p : Path} {content : Text} {place : Disk.Place}
    (h : Host.Writes p content host written place) : Fills [p] host written where
  sound := h.sound
  here := h.here
  adds := h.adds
  back _ _ hentry hplace := h.get?_back hplace hentry
  frame other hne :=
    have hshows := Classical.not_not.mp (mt (h.frame other) hne)
    ⟨p, List.mem_singleton_self p, place, h.leads, hshows⟩

/-- A file whose directory is there is written to the place that its path leads to. -/
theorem fills_writeText (hs : host.Sound) {p : Path}
    (hparent : p.parent = [] ∨ host.isDirectory p.parent)
    (content : Text) : Fills [p] host ((Disk.writeText p content true).run host).2 := by
  rw [Disk.run_writeText, Disk.Host.ensureDirectory_of_isDirectory hparent]
  dsimp only
  cases hwrite : host.writeFile p content with
  | error refusal => exact fills_refl hs _
  | ok written =>
    obtain ⟨place, hwrites⟩ := hs.exists_writes hwrite
    exact fills_of_writes hwrites

/-- Files whose directories are there are written where their paths lead, however it ends. -/
theorem fills_writeAll {files : List (Path × Text)} (hs : desk.host.Sound)
    (hparents : ∀ file ∈ files, file.1.parent = [] ∨ desk.host.isDirectory file.1.parent)
    (report : Report) :
    Fills (files.map (·.1)) desk.host ((writeAll files report).run desk).2.host := by
  induction files generalizing desk report with
  | nil => exact fills_refl hs _
  | cons file files ih =>
    obtain ⟨hparent, hrest⟩ := List.forall_mem_cons.mp hparents
    have hfirst := fills_writeText hs hparent file.2
    rw [writeAll_cons, Disk.run_bind, Disk.run_onHost]
    rcases hended : (Disk.writeText file.1 file.2 true).run desk.host with ⟨fault | _, written⟩ <;>
      rw [hended] at hfirst
    · exact hfirst.trans (fills_refl hfirst.sound _)
    · refine hfirst.trans (@ih { desk with host := written } hfirst.sound (fun file hfile => ?_) _)
      exact (hrest file hfile).imp_right (hfirst.isDirectory hs)

/-- Of several files, the last one is written as it is to be, unless a device stands at its
place. -/
theorem exists_of_writeAll_concat {before : List (Path × Text)} {file : Path × Text}
    (hs : desk.host.Sound)
    (hparents : ∀ other ∈ before ++ [file],
      other.1.parent = [] ∨ desk.host.isDirectory other.1.parent)
    {report made : Report} {after : Desk}
    (h : (writeAll (before ++ [file]) report).run desk = (.ok made, after)) :
    ∃ place, desk.host.LeadsTo file.1 place ∧
      (after.host.tree.get? place = some (.file file.2) ∨
        ∃ device, desk.host.tree.get? place = some (.device device)) := by
  rw [writeAll, List.foldlM_append] at h
  obtain ⟨first, between, hbefore, h⟩ := Disk.exists_of_run_bind_eq_ok h
  have hfills := fills_writeAll hs (fun other hother =>
    hparents other (List.mem_append_left _ hother))
    report
  rw [show (writeAll before report).run desk = _ from hbefore] at hfills
  change (writeAll [file] first).run between = _ at h
  rw [writeAll_cons] at h
  obtain ⟨_, written, hwrite, h⟩ := Disk.exists_of_run_bind_eq_ok h
  obtain rfl : written = after := congrArg Prod.snd h
  have hparent := (hparents file (by simp)).imp_right (hfills.isDirectory hs)
  rw [Disk.run_onHost, Disk.run_writeText,
    Disk.Host.ensureDirectory_of_isDirectory hparent] at hwrite
  dsimp only at hwrite
  cases hended : between.host.writeFile file.1 file.2 with
  | error refusal =>
    rw [hended] at hwrite
    exact absurd (congrArg Prod.fst hwrite) (by simp)
  | ok host =>
    rw [hended] at hwrite
    obtain rfl : _ = written := congrArg Prod.snd hwrite
    obtain ⟨place, hwrites⟩ := hfills.sound.exists_writes hended
    refine ⟨place, hfills.leadsTo_back hwrites.leads, ?_⟩
    rcases hwrites.written with ⟨hfile, -⟩ | ⟨-, device, hdevice⟩
    · exact Or.inl (hfile place (Or.inl rfl))
    · exact Or.inr ⟨device, hfills.back place _ (by simp) hdevice⟩

/-- The files that were written are the ones that are reported. -/
theorem report_of_writeAll {files : List (Path × Text)} {report made : Report} {after : Desk}
    (h : (writeAll files report).run desk = (.ok made, after)) :
    made = { report with files := report.files ++ files.map (·.1) } := by
  induction files generalizing desk report with
  | nil =>
    rw [List.map_nil, List.append_nil]
    exact (Except.ok.inj (congrArg Prod.fst h)).symm
  | cons file files ih =>
    rw [writeAll_cons] at h
    obtain ⟨_, between, -, hrest⟩ := Disk.exists_of_run_bind_eq_ok h
    simpa using ih hrest

/-- The directory of every file of a feature is one of its directories. The file stands right in its
directory: neither the name nor what is put around it holds a slash. -/
theorem parent_mem_featureDirectories (h : Name.validate text = .ok name) :
    ∀ file ∈ featureFiles config name, file.1.parent ∈ featureDirectories config name := by
  intro file hfile
  obtain ⟨t, ht, rfl⟩ := List.mem_map.mp hfile
  obtain ⟨above, habove, before, behind, hslash, hpath⟩ :=
    exists_path_of_mem_files name config.anchors.routerClass t ht
  refine List.mem_map.mpr ⟨above, habove, ?_⟩
  obtain ⟨hinside, hend⟩ := isInside_of_mem_directories above habove
  have hrelative := (Path.stays_of_isInside hinside).relative
  have hne : above ≠ [] := fun hnil => hend (by rw [hnil]; rfl)
  have hlast : slash ∉ before ++ (name.snake ++ behind) := by
    obtain rfl := Name.eq_ofText_of_validate h
    have hsnake : slash ∉ (Name.ofText text).snake := fun hmem =>
      absurd (Name.isSnakeByte_of_mem_snake text slash hmem) (by decide)
    simpa [not_or, hsnake] using hslash
  obtain ⟨b, hb, hbne⟩ : ∃ b ∈ above, b ≠ slash :=
    (by decide : ∀ d ∈ Template.Feature.directories, ∃ b ∈ d, b ≠ slash) above habove
  have hmem : b ∈ (featureRoot config name).join above := by
    rw [Path.join_eq hrelative]
    exact List.mem_append_right _ hb
  have hfile :
      (featureRoot config name).join (t.fill (varsOf name config.anchors.routerClass)).path =
      (featureRoot config name).join above ++ slash :: (before ++ (name.snake ++ behind)) := by
    rw [hpath, Path.join_eq hrelative, Path.join_eq, List.append_assoc]
    rwa [Path.isAbsolute_append (Or.inl hne)]
  have hslashless : Path.endsInSlash ((featureRoot config name).join above) = false := by
    have hname : Path.fileName ((featureRoot config name).join above) ≠ [] :=
      mt (Path.fileName_join_eq_nil_iff hrelative hne).mp hend
    simp [Path.endsInSlash, hname]
  rw [hfile, Path.parent_append_slash hlast hmem hbne,
    Path.trimEnd_slash_eq_self hslashless (Path.trimEnd_slash_ne_nil hmem hbne)]

/-! ## Registering -/

/-- A registration touches the places of the registry and its sibling, and the other names of what
the sibling leads to. -/
theorem names_of_register {registry : Path} (hs : desk.host.Sound) (spec : Registry.AnchorSpec)
    (policy : Registry.Policy) (route : Route) {place : Disk.Place}
    (hne : ((Registry.register registry spec policy route).run desk).2.host.tree.get? place ≠
      desk.host.tree.get? place) :
    desk.host.Names registry place ∨ desk.host.Names (Disk.temporary registry) place ∨
      desk.host.Affects (Disk.temporary registry) place := by
  cases hfile : desk.host.isFile registry with
  | false =>
    rw [Registry.run_register_of_not_isFile hfile] at hne
    exact absurd rfl hne
  | true =>
    obtain ⟨w, doc, hleads, hget⟩ := hs.isFile_iff.mp hfile
    rw [Registry.run_register hfile (hleads.readFile_eq hget)] at hne
    dsimp only at hne
    split at hne
    · have hreplaces :=
        Disk.replaces_replaceText hs registry (Registry.patch spec policy doc route).text
      obtain ⟨made, hmade, -⟩ := Disk.ensureDirectory_of_isFile hs hfile
      rw [hmade] at hreplaces
      generalize (Disk.replaceText registry (Registry.patch spec policy doc route).text).run
        desk.host = ended at hne hreplaces
      refine hreplaces.names hs fun heq => hne ?_
      rcases ended with ⟨_ | _, final⟩ <;> exact heq
    · exact absurd rfl hne

/-! ## Runs -/

/-- Reading a name leaves the desk as it is. -/
theorem run_named (kind : String) (text : Text) (desk : Desk) :
    (named kind text).run desk =
      match Name.validate text with
      | .ok name => (.ok name, desk)
      | .error fault => (.error (.badName (lit kind) text fault), desk) := by
  rw [named]
  cases Name.validate text <;> rfl

/-- Looking at targets leaves the desk as it is and refuses the first that exists. -/
theorem run_checkTargets (files : List Path) (desk : Desk) :
    (checkTargets false files).run desk =
      match files.find? desk.host.exists? with
      | some p => (.error (.file ⟨.alreadyThere, p⟩), desk)
      | none => (.ok (), desk) := by
  change ((get : Task Fault Desk) >>= fun desk =>
    match files.find? desk.host.exists? with
    | some p => throw (.file ⟨.alreadyThere, p⟩)
    | none => pure ()).run desk = _
  rw [Disk.run_bind]
  change ((match files.find? desk.host.exists? with
    | some p => throw (.file ⟨.alreadyThere, p⟩)
    | none => pure () : Task Fault Unit)).run desk = _
  cases files.find? desk.host.exists? <;> rfl

/-- A route is registered in the registry of the settings. -/
theorem desk_registerRoute (config : Config) (name : Name) (report : Report) (desk : Desk) :
    ((registerRoute config name report).run desk).2 =
      ((Registry.register config.routerPath config.anchors config.policy
        (featureRoute config name)).run desk).2 := by
  rw [run_registerRoute]
  rcases (Registry.register config.routerPath config.anchors config.policy
    (featureRoute config name)).run desk with ⟨_ | _, after⟩ <;> rfl

/-! ## Up to the registration -/

/-- A feature without its registration, with the name and the report that go on to it. -/
def groundwork (config : Config) (overwrite : Bool) (text : Text) :
    Task Fault (Name × Report) := do
  let name ← named "feature" text
  checkTargets overwrite ((featureFiles config name).map (·.1))
  let report ← ensureAll (featureDirectories config name) {}
  let report ← writeAll (featureFiles config name) report
  return (name, report)

/-- A feature is its groundwork and its registration. -/
theorem feature_eq (config : Config) (overwrite : Bool) (text : Text) :
    feature config overwrite text = groundwork config overwrite text >>= fun (name, report) =>
      registerRoute config name report := by
  simp only [feature, groundwork, bind_assoc, pure_bind]

section Adding

variable {α β : Type}

/-- Work that keeps all objects at their places. -/
def OnlyAdds (work : Task Fault α) : Prop :=
  ∀ desk : Desk, desk.host.Sound →
    (work.run desk).2.host.Sound ∧ desk.host.tree.Adds (work.run desk).2.host.tree

/-- Work that leaves the desk as it is keeps all objects. -/
theorem onlyAdds_of_eq {work : Task Fault α} (h : ∀ desk, (work.run desk).2 = desk) :
    OnlyAdds work := fun desk hs => by
  rw [h desk]
  exact ⟨hs, .refl _⟩

/-- Work that keeps all objects goes on with work that does. -/
theorem OnlyAdds.bind {work : Task Fault α} {more : α → Task Fault β} (h : OnlyAdds work)
    (hmore : ∀ a, OnlyAdds (more a)) : OnlyAdds (work >>= more) := by
  intro desk hs
  obtain ⟨hsound, hadds⟩ := h desk hs
  rw [Disk.run_bind]
  rcases hrun : work.run desk with ⟨fault | a, after⟩ <;> rw [hrun] at hsound hadds
  · exact ⟨hsound, hadds⟩
  · obtain ⟨hlater, hadds'⟩ := hmore a after hsound
    exact ⟨hlater, hadds.trans hadds'⟩

/-- Work on the host keeps what the action keeps. -/
theorem onlyAdds_onHost {action : Disk.Action Disk.FileFault Unit}
    (h : ∀ host : Host, host.Sound →
      (action.run host).2.Sound ∧ host.tree.Adds (action.run host).2.tree) :
    OnlyAdds (Task.onHost action .file : Task Fault Unit) := by
  intro desk hs
  have hended := h desk.host hs
  rw [Disk.run_onHost]
  rcases hrun : action.run desk.host with ⟨_ | _, host⟩ <;> rw [hrun] at hended <;> exact hended

/-- Making directories keeps all objects at their places. -/
theorem onlyAdds_ensureAll (directories : List Path) (report : Report) :
    OnlyAdds (ensureAll directories report) := by
  induction directories generalizing report with
  | nil => exact onlyAdds_of_eq fun _ => rfl
  | cons d directories ih =>
    rw [ensureAll_cons]
    refine (onlyAdds_onHost fun host hs => ?_).bind fun _ => ih _
    exact ⟨(hs.extends_ensureDirectory d).sound, (hs.extends_ensureDirectory d).adds⟩

/-- Directories above a file are added, and then the file is written. -/
theorem adds_writeText (hs : host.Sound) (p : Path) (content : Text) :
    ((Disk.writeText p content true).run host).2.Sound ∧
      host.tree.Adds ((Disk.writeText p content true).run host).2.tree := by
  have hextends := hs.extends_ensureDirectory p.parent
  rw [Disk.run_writeText]
  rcases hmade : (Disk.ensureDirectory p.parent).run host with ⟨fault | _, ready⟩ <;>
    rw [hmade] at hextends
  · exact ⟨hextends.sound, hextends.adds⟩
  · dsimp only
    cases hwrite : ready.writeFile p content with
    | error refusal => exact ⟨hextends.sound, hextends.adds⟩
    | ok written =>
      obtain ⟨place, hwrites⟩ := hextends.sound.exists_writes hwrite
      exact ⟨hwrites.sound, hextends.adds.trans hwrites.adds⟩

/-- Writing files keeps all objects at their places. -/
theorem onlyAdds_writeAll (files : List (Path × Text)) (report : Report) :
    OnlyAdds (writeAll files report) := by
  induction files generalizing report with
  | nil => exact onlyAdds_of_eq fun _ => rfl
  | cons file files ih =>
    rw [writeAll_cons]
    exact (onlyAdds_onHost fun host hs => adds_writeText hs file.1 file.2).bind fun _ => ih _

/-- Up to its registration, a feature keeps all objects at their places, however it ends. -/
theorem onlyAdds_groundwork (config : Config) (overwrite : Bool) (text : Text) :
    OnlyAdds (groundwork config overwrite text) := by
  refine (onlyAdds_of_eq fun desk => ?_).bind fun name => (onlyAdds_of_eq fun desk => ?_).bind
    fun _ => (onlyAdds_ensureAll _ _).bind fun report => (onlyAdds_writeAll _ _).bind fun report =>
      onlyAdds_of_eq fun _ => rfl
  · rw [run_named]
    cases Name.validate text <;> rfl
  · cases overwrite with
    | true => rfl
    | false =>
      rw [run_checkTargets]
      cases ((featureFiles config name).map (·.1)).find? desk.host.exists? <;> rfl

end Adding

section Groundwork

variable {after : Desk}

/-- A name that is read is the one that the text spells. -/
theorem validate_of_named {kind : String} (h : (named kind text).run desk = (.ok name, after)) :
    Name.validate text = .ok name ∧ after = desk := by
  rw [run_named] at h
  cases hvalidate : Name.validate text with
  | error fault =>
    rw [hvalidate] at h
    exact absurd (congrArg Prod.fst h) (by simp)
  | ok valid =>
    rw [hvalidate] at h
    obtain ⟨hname, hdesk⟩ := Prod.mk.inj h
    exact ⟨congrArg Except.ok (Except.ok.inj hname), hdesk.symm⟩

/-- Targets that are not refused leave the desk as it was. -/
theorem eq_of_checkTargets {files : List Path}
    (h : (checkTargets overwrite files).run desk = (.ok (), after)) : after = desk := by
  cases overwrite with
  | true => exact (congrArg Prod.snd h).symm
  | false =>
    rw [run_checkTargets] at h
    cases hfind : files.find? desk.host.exists? with
    | some p =>
      rw [hfind] at h
      exact absurd (congrArg Prod.fst h) (by simp)
    | none =>
      rw [hfind] at h
      exact (congrArg Prod.snd h).symm

/-- The page of a feature is the last of its files. -/
theorem exists_featureFiles_eq_concat (config : Config) (name : Name) :
    ∃ before, featureFiles config name = before ++
      [(pageBelow config (featureRoot config name) name,
        Template.expand (varsOf name config.anchors.routerClass) Template.Feature.page)] := by
  refine ⟨(featureFiles config name).dropLast, ?_⟩
  simp only [featureFiles, filesBelow, Template.Feature.files, List.map_cons, List.map_nil]
  rfl

section Run

variable {report : Report}
  (h : (groundwork config overwrite text).run desk = (.ok (name, report), after))
include h

/-- The stages before the registration: the name that the text spells, the directories of the
feature, and then its files. -/
theorem exists_of_run_groundwork : Name.validate text = .ok name ∧
    ∃ made prepared, (ensureAll (featureDirectories config name) {}).run desk =
      (.ok made, prepared) ∧
      (writeAll (featureFiles config name) made).run prepared = (.ok report, after) := by
  obtain ⟨found, spelled, hspelled, h⟩ := Disk.exists_of_run_bind_eq_ok h
  obtain ⟨⟨⟩, checked, hchecked, h⟩ := Disk.exists_of_run_bind_eq_ok h
  obtain ⟨made, prepared, hprepared, h⟩ := Disk.exists_of_run_bind_eq_ok h
  obtain ⟨filled, written, hfilled, h⟩ := Disk.exists_of_run_bind_eq_ok h
  obtain ⟨hresult, rfl⟩ := Prod.mk.inj h
  obtain ⟨rfl, rfl⟩ := Prod.mk.inj (Except.ok.inj hresult)
  obtain ⟨hname, rfl⟩ := validate_of_named hspelled
  obtain rfl := eq_of_checkTargets hchecked
  exact ⟨hname, made, prepared, hprepared, hfilled⟩

/-- What is reported before the registration. -/
theorem report_of_groundwork : report =
    { directories := featureDirectories config name
      files := (featureFiles config name).map (·.1) } := by
  obtain ⟨-, made, prepared, hprepared, hfilled⟩ := exists_of_run_groundwork h
  rw [report_of_writeAll hfilled, report_of_ensureAll hprepared]
  simp

/-- Where a feature is ready to be registered, its directories have been made and its files have
been written, the page last. -/
theorem exists_of_groundwork (hs : desk.host.Sound) :
    let ready := ((ensureAll (featureDirectories config name) {}).runOn desk).2.host
    Prepares desk.host ready ∧ Fills ((featureFiles config name).map (·.1)) ready after.host ∧
      ∃ place, ready.LeadsTo (pageBelow config (featureRoot config name) name) place ∧
        (after.host.tree.get? place = some (.file
            (Template.expand (varsOf name config.anchors.routerClass) Template.Feature.page)) ∨
          ∃ device, ready.tree.get? place = some (.device device)) := by
  obtain ⟨hname, made, prepared, hprepared, hfilled⟩ := exists_of_run_groundwork h
  intro ready
  obtain ⟨hprepares, hmade⟩ := prepares_ensureAll hs (featureDirectories config name) {}
  have hready : ready = prepared.host := congrArg (Desk.host ∘ Prod.snd) hprepared
  rw [hprepared] at hprepares hmade
  have hparents (file : Path × Text) (hfile : file ∈ featureFiles config name) :
      file.1.parent = [] ∨ prepared.host.isDirectory file.1.parent :=
    hmade made rfl _ (parent_mem_featureDirectories hname file hfile)
  have hfills := fills_writeAll hprepares.sound hparents made
  rw [hfilled] at hfills
  rw [hready]
  refine ⟨hprepares, hfills, ?_⟩
  obtain ⟨before, hconcat⟩ := exists_featureFiles_eq_concat config name
  rw [hconcat] at hfilled
  exact exists_of_writeAll_concat hprepares.sound (hconcat ▸ hparents) hfilled

end Run

end Groundwork

end FlutterScaffold.Generation
