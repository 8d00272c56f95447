import FlutterScaffold.CommandLine.Options

/-!
# Groups of arguments

The arguments of a subcommand are cut into groups: an option and the value behind it, an option that
holds its value, a flag, or a name. Reading the groups from the left gives what they ask for
(`Options.read_eq_ok_iff`), and that is told without the reading: the last directory, the last
organization, the last name, and which flags there are. So groups may be put into another order, as
long as those that name a directory keep theirs, and so do those that name an organization and those
that give the name (`parse_reordered`).
-/

namespace FlutterScaffold.CommandLine

open FlutterScaffold.Text (after? after?_eq_some_iff)

/-- Options without a value. -/
inductive Flag where
  | force
  | bestEffort
  | quiet
  | help
  | skipFlutter
  deriving DecidableEq, Repr

/-- How a flag is spelled for a subcommand; only a new project can do without the Flutter tool. -/
def Flag.spellings (subject : Subject) : Flag → List Text
  | force => [lit "--force", lit "-f"]
  | bestEffort => [lit "--best-effort"]
  | quiet => [lit "--quiet", lit "-q"]
  | help => [lit "--help", lit "-h"]
  | skipFlutter => if subject = .project then [lit "--skip-flutter"] else []

/-- The flag that an argument spells. -/
def Flag.ofSpelling? (subject : Subject) (argument : Text) : Option Flag :=
  [force, bestEffort, quiet, help, skipFlutter].find? fun which =>
    argument ∈ which.spellings subject

/-- Arguments that are read at once. -/
inductive Group where
  /-- The option for the directory, and the directory behind it. -/
  | root (directory : Text)
  /-- The option for the directory that holds the directory itself. -/
  | joinedRoot (directory : Text)
  /-- An option for the organization, and the organization behind it. -/
  | organization (option name : Text)
  /-- A flag and the argument that spells it. -/
  | flag (which : Flag) (option : Text)
  /-- An argument that is no option. -/
  | positional (argument : Text)
  deriving DecidableEq, Repr

namespace Group

/-- The arguments of a group. -/
def arguments : Group → List Text
  | root directory => [lit "--root", directory]
  | joinedRoot directory => [lit "--root=" ++ directory]
  | organization option name => [option, name]
  | flag _ option => [option]
  | positional argument => [argument]

/-- The directory that a group names. -/
def directory? : Group → Option Text
  | root directory => some directory
  | joinedRoot directory => some directory
  | _ => none

/-- The organization that a group names. -/
def organization? : Group → Option Text
  | organization _ name => some name
  | _ => none

/-- The argument of a group that is no option. -/
def positional? : Group → Option Text
  | positional argument => some argument
  | _ => none

/-- The flag of a group. -/
def flag? : Group → Option Flag
  | flag which _ => some which
  | _ => none

/-- Whether a subcommand takes a group. -/
def Fits (subject : Subject) : Group → Prop
  | root _ => True
  | joinedRoot directory => directory ≠ []
  | organization option _ => asksOrganization subject option = true
  | flag which option => Flag.ofSpelling? subject option = some which
  | positional argument => argument.head? ≠ some (byte '-')

end Group

/-- The group of a single argument. -/
def groupOf (subject : Subject) (argument : Text) : Group :=
  match after? (lit "--root=") argument with
  | some directory => .joinedRoot directory
  | none =>
    match Flag.ofSpelling? subject argument with
    | some which => .flag which argument
    | none => .positional argument

/-- Arguments cut into groups; none when the value of the last option is missing. -/
def groupsOf? (subject : Subject) : List Text → Option (List Group)
  | [] => some []
  | argument :: rest =>
    if argument = lit "--root" then
      match rest with
      | [] => none
      | directory :: more => (groupsOf? subject more).map (.root directory :: ·)
    else if asksOrganization subject argument then
      match rest with
      | [] => none
      | name :: more => (groupsOf? subject more).map (.organization argument name :: ·)
    else (groupsOf? subject rest).map (groupOf subject argument :: ·)

namespace Options

/-- The options with a flag set. -/
def set (o : Options) : Flag → Options
  | .force => { o with force := true }
  | .bestEffort => { o with bestEffort := true }
  | .quiet => { o with quiet := true }
  | .help => { o with help := true }
  | .skipFlutter => { o with skipFlutter := true }

/-- The options with what a group asks for; it overwrites what was asked for before. -/
def take (o : Options) : Group → Options
  | .root directory | .joinedRoot directory => { o with root := directory }
  | .organization _ name => { o with organization := name }
  | .flag which _ => o.set which
  | .positional argument => { o with name := argument }

/-- The options with what some groups ask for: the last directory, the last organization and the
last name, and each flag that is among them. -/
def asked (o : Options) (groups : List Group) : Options where
  root := (groups.filterMap Group.directory?).getLastD o.root
  force := o.force || (groups.filterMap Group.flag?).contains .force
  bestEffort := o.bestEffort || (groups.filterMap Group.flag?).contains .bestEffort
  quiet := o.quiet || (groups.filterMap Group.flag?).contains .quiet
  help := o.help || (groups.filterMap Group.flag?).contains .help
  organization := (groups.filterMap Group.organization?).getLastD o.organization
  skipFlutter := o.skipFlutter || (groups.filterMap Group.flag?).contains .skipFlutter
  name := (groups.filterMap Group.positional?).getLastD o.name

/-- Whether names may follow the one there is: of all of them, only the last may have bytes. -/
def HasRoom (o : Options) (names : List Text) : Prop :=
  ∀ name ∈ (o.name :: names).dropLast, name = []

/-! ## Reading a group -/

section Single

variable {subject : Subject} {argument : Text} {o o' : Options}

theorem asked_nil (o : Options) : o.asked [] = o := by
  simp [asked]

/-- Groups are taken one after another. -/
theorem asked_cons (o : Options) (group : Group) (groups : List Group) :
    o.asked (group :: groups) = (o.take group).asked groups := by
  cases group with
  | flag which option =>
    cases which <;> simp [asked, take, set, List.filterMap_cons, Group.directory?,
      Group.organization?, Group.positional?, Group.flag?]
  | _ =>
    simp only [asked, take, List.filterMap_cons, Group.directory?, Group.organization?,
      Group.positional?, Group.flag?, List.getLastD_cons]

/-- A group that is an option leaves the name as it is. -/
theorem take_name (o : Options) {group : Group} (h : group.positional? = none) :
    (o.take group).name = o.name := by
  cases group with
  | positional argument => simp [Group.positional?] at h
  | flag which option => cases which <;> rfl
  | _ => rfl

/-- There is room for a first name where there is none yet, and then for the others behind it. -/
theorem hasRoom_cons (o : Options) (group : Group) (groups : List Group) :
    o.HasRoom ((group :: groups).filterMap Group.positional?) ↔
      (group.positional?.isSome → o.name = []) ∧
        (o.take group).HasRoom (groups.filterMap Group.positional?) := by
  cases h : group.positional? with
  | none => simp [HasRoom, h, o.take_name h]
  | some argument =>
    obtain rfl : group = .positional argument := by cases group <;> simp_all [Group.positional?]
    simp [HasRoom, h, take]

/-- One link of a chain of tests is one flag of a search. -/
private theorem or_find?_cons {o : Options} {which : Flag} {flags : List Flag} {p : Flag → Bool}
    {c : Prop} [Decidable c] {set : Options} {others rest : Option Options}
      (hset : set = o.set which)
    (hp : p which = true ↔ c) (h : others.or rest = (flags.find? p).map o.set) :
    (if c then some set else others).or rest = ((which :: flags).find? p).map o.set := by
  by_cases hc : c
  · rw [if_pos hc, List.find?_cons_of_pos (hp.mpr hc), hset]
    rfl
  · rw [if_neg hc, List.find?_cons_of_neg (mt hp.mp hc), h]

/-- A flag is set by each of its spellings, and by nothing else. The spellings are looked up in the
same order, and skipping comes last. -/
theorem flag?_or_eq (o : Options) (subject : Subject) (argument : Text) :
    (o.flag? argument).or (if subject = .project ∧ argument = lit "--skip-flutter" then
      some { o with skipFlutter := true } else none) =
        (Flag.ofSpelling? subject argument).map o.set := by
  have hskip : argument ∈ Flag.skipFlutter.spellings subject ↔
      subject = .project ∧ argument = lit "--skip-flutter" := by
    rw [Flag.spellings]
    split <;> simp [*]
  rw [Options.flag?, Flag.ofSpelling?]
  refine or_find?_cons rfl (by simp [Flag.spellings]) ?_
  refine or_find?_cons rfl (by simp [Flag.spellings]) ?_
  refine or_find?_cons rfl (by simp [Flag.spellings]) ?_
  refine or_find?_cons rfl (by simp [Flag.spellings]) ?_
  rw [Option.none_or]
  exact Option.or_none.symm.trans (or_find?_cons rfl (by simpa using hskip) rfl)

/-- The step over a single argument takes its group, if the group fits and there is room for it. -/
theorem single_eq_ok_iff : o.single subject argument = .ok o' ↔
    (groupOf subject argument).Fits subject ∧
      ((groupOf subject argument).positional?.isSome → o.name = []) ∧
      o' = o.take (groupOf subject argument) := by
  have hflag := flag?_or_eq o subject argument
  rw [single, groupOf]
  cases after? (lit "--root=") argument with
  | some directory =>
    cases directory with
    | nil => simp [Group.Fits]
    | cons b rest => simp [Group.Fits, Group.positional?, take, eq_comm]
  | none =>
    cases hspelling : Flag.ofSpelling? subject argument with
    | some which =>
      rw [hspelling, Option.map_some] at hflag
      cases hset : o.flag? argument with
      | some set =>
        rw [hset, Option.some_or, Option.some.injEq] at hflag
        simp [hflag, Group.Fits, Group.positional?, take, hspelling, eq_comm]
      | none =>
        rw [hset, Option.none_or, Option.ite_none_right_eq_some, Option.some.injEq] at hflag
        obtain ⟨hskip, hflag⟩ := hflag
        have hgo : (subject = .project && argument = lit "--skip-flutter") = true := by
          simpa using hskip
        simp only [hgo]
        simp [hflag, Group.Fits, Group.positional?, take, hspelling, eq_comm]
    | none =>
      rw [hspelling, Option.map_none, Option.or_eq_none_iff] at hflag
      obtain ⟨hnone, hskip⟩ := hflag
      have hpass : ¬ (subject = .project && argument = lit "--skip-flutter") = true := by
        simpa using hskip
      simp only [hnone, if_neg hpass, Group.Fits, Group.positional?, take, Option.isSome_some,
        true_implies]
      split
      · rename_i hdash
        simp [hdash]
      · rename_i hdash
        cases hname : o.name with
        | nil => simp [hdash, eq_comm]
        | cons b rest => simp

end Single

end Options

/-! ## Cutting into groups -/

section Cutting

variable {subject : Subject} {argument : Text} {arguments rest : List Text}
  {group : Group} {groups : List Group}

/-- A group of one argument is written as that argument. -/
theorem groupOf_arguments (subject : Subject) (argument : Text) :
    (groupOf subject argument).arguments = [argument] := by
  rw [groupOf]
  split
  · rename_i directory hafter
    rw [Group.arguments, ← after?_eq_some_iff.mp hafter]
  · split <;> rfl

/-- Arguments that start with `--root` have the group of the directory behind it first. -/
theorem groupsOf?_root (directory : Text) (rest : List Text) :
    groupsOf? subject (lit "--root" :: directory :: rest) =
      (groupsOf? subject rest).map (.root directory :: ·) := by
  rw [groupsOf?, if_pos rfl]

/-- Arguments that start with an organization's option have its group first. -/
theorem groupsOf?_organization (h : asksOrganization subject argument = true) (name : Text)
    (rest : List Text) :
    groupsOf? subject (argument :: name :: rest) =
      (groupsOf? subject rest).map (.organization argument name :: ·) := by
  have hroot : argument ≠ lit "--root" := by
    rintro rfl
    cases subject <;> exact absurd h (by decide)
  rw [groupsOf?, if_neg hroot, if_pos h]

/-- Any other argument is a group of its own. -/
theorem groupsOf?_single (hroot : argument ≠ lit "--root")
    (horganization : asksOrganization subject argument = false) (rest : List Text) :
    groupsOf? subject (argument :: rest) =
      (groupsOf? subject rest).map (groupOf subject argument :: ·) := by
  rw [groupsOf?.eq_def]
  simp only [if_neg hroot, horganization, Bool.false_eq_true, if_false]

/-- The groups, put behind each other, are the arguments. -/
theorem flatMap_arguments_of_groupsOf? (h : groupsOf? subject arguments = some groups) :
    groups.flatMap Group.arguments = arguments := by
  fun_induction groupsOf? subject arguments generalizing groups with
  | case1 =>
    cases h
    rfl
  | case2 => cases h
  | case3 directory more ih =>
    obtain ⟨others, hothers, rfl⟩ := Option.map_eq_some_iff.mp h
    rw [List.flatMap_cons, ih hothers, Group.arguments]
    rfl
  | case4 => cases h
  | case5 option hroot hasks name more ih =>
    obtain ⟨others, hothers, rfl⟩ := Option.map_eq_some_iff.mp h
    rw [List.flatMap_cons, ih hothers, Group.arguments]
    rfl
  | case6 argument rest hroot hasks ih =>
    obtain ⟨others, hothers, rfl⟩ := Option.map_eq_some_iff.mp h
    rw [List.flatMap_cons, ih hothers, groupOf_arguments]
    rfl

/-- An argument that starts with another byte than a dash is no option. -/
theorem groupsOf?_positional (h : argument.head? ≠ some (byte '-')) (rest : List Text) :
    groupsOf? subject (argument :: rest) =
      (groupsOf? subject rest).map (.positional argument :: ·) := by
  have hne (option : Text) (hoption : option.head? = some (byte '-')) : argument ≠ option := by
    rintro rfl
    exact h hoption
  have hasks : asksOrganization subject argument = false := by
    simp [asksOrganization, hne (lit "--org") rfl, hne (lit "-o") rfl]
  have hafter : after? (lit "--root=") argument = none := by
    apply Option.eq_none_iff_forall_ne_some.mpr
    intro directory hdirectory
    exact hne _ rfl (after?_eq_some_iff.mp hdirectory)
  have hflag : Flag.ofSpelling? subject argument = none := by
    apply List.find?_eq_none.mpr
    intro which _ hmem
    have hdash : ∀ option ∈ which.spellings subject, option.head? = some (byte '-') := by
      cases which <;> cases subject <;> decide
    exact h (hdash argument (of_decide_eq_true hmem))
  have hgroup : groupOf subject argument = .positional argument := by
    rw [groupOf, hafter, hflag]
  rw [groupsOf?_single (hne _ rfl) hasks, hgroup]

/-- A flag is no option with a value. -/
theorem groupsOf?_flag {which : Flag} (h : Flag.ofSpelling? subject argument = some which)
    (rest : List Text) : groupsOf? subject (argument :: rest) =
      (groupsOf? subject rest).map (.flag which argument :: ·) := by
  have hmem : argument ∈ which.spellings subject := by simpa using List.find?_some h
  have hplain : ∀ option ∈ which.spellings subject,
      option ≠ lit "--root" ∧ option ≠ lit "--org" ∧ option ≠ lit "-o" ∧
        after? (lit "--root=") option = none := by
    cases which <;> cases subject <;> decide
  obtain ⟨hroot, horg, ho, hafter⟩ := hplain argument hmem
  have hasks : asksOrganization subject argument = false := by
    simp [asksOrganization, horg, ho]
  have hgroup : groupOf subject argument = .flag which argument := by
    rw [groupOf, hafter, h]
  rw [groupsOf?_single hroot hasks, hgroup]

/-- A directory that is joined to `--root=` is a group of its own. -/
theorem groupsOf?_joinedRoot (directory : Text) (rest : List Text) :
    groupsOf? subject ((lit "--root=" ++ directory) :: rest) =
      (groupsOf? subject rest).map (.joinedRoot directory :: ·) := by
  have hne (option : Text) (hoption : ¬ lit "--root=" <+: option) :
      lit "--root=" ++ directory ≠ option := by
    rintro rfl
    exact hoption (List.prefix_append _ _)
  have hasks : asksOrganization subject (lit "--root=" ++ directory) = false := by
    simp [asksOrganization, hne (lit "--org") (by decide), hne (lit "-o") (by decide)]
  have hgroup : groupOf subject (lit "--root=" ++ directory) = .joinedRoot directory := by
    rw [groupOf, after?_eq_some_iff.mpr rfl]
  rw [groupsOf?_single (hne _ (by decide)) hasks, hgroup]

/-- A group that fits is cut off from what follows it, whatever that is. -/
theorem groupsOf?_arguments_append (h : group.Fits subject) (rest : List Text) :
    groupsOf? subject (group.arguments ++ rest) = (groupsOf? subject rest).map (group :: ·) := by
  cases group with
  | root directory => exact groupsOf?_root directory rest
  | joinedRoot directory => exact groupsOf?_joinedRoot directory rest
  | organization option name => exact groupsOf?_organization h name rest
  | flag which option => exact groupsOf?_flag h rest
  | positional argument => exact groupsOf?_positional h rest

/-- Groups that fit are found again in their arguments. -/
theorem groupsOf?_flatMap_arguments (h : ∀ group ∈ groups, group.Fits subject) :
    groupsOf? subject (groups.flatMap Group.arguments) = some groups := by
  induction groups with
  | nil => rfl
  | cons group groups ih =>
    have hgroup := h group List.mem_cons_self
    have hgroups := ih fun other hother => h other (List.mem_cons_of_mem group hother)
    rw [List.flatMap_cons, groupsOf?_arguments_append hgroup, hgroups, Option.map_some]

end Cutting

/-! ## Reading groups -/

namespace Options

section Groups

variable {subject : Subject} {arguments : List Text} {groups groups' : List Group}
  {o o' : Options}

/-- Whether a subcommand that reads groups takes them all. -/
def Takes (o : Options) (subject : Subject) (groups : List Group) : Prop :=
  (∀ group ∈ groups, group.Fits subject) ∧ o.HasRoom (groups.filterMap Group.positional?)

theorem takes_nil (o : Options) (subject : Subject) : o.Takes subject [] := by
  simp [Takes, HasRoom]

/-- Groups are taken exactly when the first one fits and has room, and the others are taken behind
it. -/
theorem takes_cons {group : Group} : o.Takes subject (group :: groups) ↔
    (group.Fits subject ∧ (group.positional?.isSome → o.name = [])) ∧
      (o.take group).Takes subject groups := by
  rw [Takes, Takes, hasRoom_cons, List.forall_mem_cons, and_and_and_comm]

/-- Arguments can be cut into groups when they are read without a fault. -/
theorem exists_groupsOf?_of_read (h : o.read subject arguments = .ok o') :
    ∃ groups, groupsOf? subject arguments = some groups := by
  fun_induction Options.read o subject arguments with
  | case1 => exact ⟨[], rfl⟩
  | case2 => cases h
  | case3 o directory more ih =>
    obtain ⟨groups, hgroups⟩ := ih h
    exact ⟨_, by rw [groupsOf?_root, hgroups, Option.map_some]⟩
  | case4 => cases h
  | case5 o option hroot hasks name more ih =>
    obtain ⟨groups, hgroups⟩ := ih h
    exact ⟨_, by rw [groupsOf?_organization hasks, hgroups, Option.map_some]⟩
  | case6 => cases h
  | case7 o argument rest hroot hasks o₁ hsingle ih =>
    obtain ⟨groups, hgroups⟩ := ih h
    have hasks : asksOrganization subject argument = false := eq_false_of_ne_true hasks
    exact ⟨_, by rw [groupsOf?_single hroot hasks, hgroups, Option.map_some]⟩

/-- Arguments are read without a fault exactly when their groups are taken, and then the options are
the ones that the groups ask for. -/
theorem read_eq_ok_iff (h : groupsOf? subject arguments = some groups) :
    o.read subject arguments = .ok o' ↔ o.Takes subject groups ∧ o' = o.asked groups := by
  fun_induction groupsOf? subject arguments generalizing groups o with
  | case1 =>
    cases h
    rw [asked_nil, read, Except.ok.injEq, eq_comm]
    exact (and_iff_right (takes_nil o subject)).symm
  | case2 => cases h
  | case3 directory more ih =>
    obtain ⟨others, hothers, rfl⟩ := Option.map_eq_some_iff.mp h
    rw [takes_cons, asked_cons, read, if_pos rfl, ih hothers]
    simp [Group.Fits, Group.positional?, take]
  | case4 => cases h
  | case5 option hroot hasks name more ih =>
    obtain ⟨others, hothers, rfl⟩ := Option.map_eq_some_iff.mp h
    rw [takes_cons, asked_cons, read, if_neg hroot, if_pos hasks, ih hothers]
    simp [Group.Fits, Group.positional?, take, hasks]
  | case6 argument rest hroot hasks ih =>
    obtain ⟨others, hothers, rfl⟩ := Option.map_eq_some_iff.mp h
    rw [takes_cons, asked_cons, read.eq_def]
    simp only [if_neg hroot, if_neg hasks]
    cases hsingle : o.single subject argument with
    | ok o₁ =>
      obtain ⟨hfits, hname, rfl⟩ := single_eq_ok_iff.mp hsingle
      rw [ih hothers, and_iff_right (And.intro hfits hname)]
    | error fault =>
      have hrefused : ¬ ((groupOf subject argument).Fits subject ∧
          ((groupOf subject argument).positional?.isSome → o.name = [])) := by
        intro htakes
        have hok := single_eq_ok_iff.mpr ⟨htakes.1, htakes.2, rfl⟩
        rw [hsingle] at hok
        cases hok
      simp [hrefused]

end Groups

end Options

/-! ## Another order -/

section Order

variable {subject : Subject} {arguments : List Text} {groups groups' : List Group} {o o' : Options}

/-- The groups in another order, in which those that name a directory stand in the order they had,
and so do those that name an organization and those that are no options. -/
structure Reordered (groups groups' : List Group) : Prop where
  perm : groups.Perm groups'
  directories : groups.filter (·.directory?.isSome) = groups'.filter (·.directory?.isSome)
  organizations : groups.filter (·.organization?.isSome) = groups'.filter (·.organization?.isSome)
  positionals : groups.filter (·.positional?.isSome) = groups'.filter (·.positional?.isSome)

/-- What a partial function gives on a list is told by the entries on which it gives something. -/
theorem filterMap_eq_of_filter_eq {part : Group → Option Text}
    (h : groups.filter (part · |>.isSome) = groups'.filter (part · |>.isSome)) :
    groups.filterMap part = groups'.filterMap part := by
  have hfilter (gs : List Group) :
      (gs.filter (part · |>.isSome)).filterMap part = gs.filterMap part := by
    rw [List.filterMap_filter]
    congr
    ext1 group
    cases part group <;> rfl
  rw [← hfilter groups, h, hfilter groups']

namespace Reordered

/-- Whether a flag is set does not depend on the order of the groups. -/
theorem flags (h : Reordered groups groups') (which : Flag) :
    (groups.filterMap Group.flag?).contains which =
      (groups'.filterMap Group.flag?).contains which :=
  (h.perm.filterMap Group.flag?).contains_eq

/-- Reordered groups ask for the same. -/
theorem asked_eq (h : Reordered groups groups') (o : Options) :
    o.asked groups = o.asked groups' := by
  simp only [Options.asked, h.flags, filterMap_eq_of_filter_eq h.directories,
    filterMap_eq_of_filter_eq h.organizations, filterMap_eq_of_filter_eq h.positionals]

/-- Reordered groups are taken together. -/
theorem takes (h : Reordered groups groups') (htakes : o.Takes subject groups) :
    o.Takes subject groups' := by
  obtain ⟨hfits, hroom⟩ := htakes
  refine ⟨fun group hgroup => hfits group (h.perm.mem_iff.mpr hgroup), ?_⟩
  rwa [← filterMap_eq_of_filter_eq h.positionals]

end Reordered

/-- Options may stand in any order: the groups that arguments are cut into can be reordered, and
what they ask for stays the same. -/
theorem parse_reordered (h : Options.parse subject arguments = .ok o) :
    ∃ groups, groupsOf? subject arguments = some groups ∧
      groups.flatMap Group.arguments = arguments ∧
      ∀ groups', Reordered groups groups' →
        groupsOf? subject (groups'.flatMap Group.arguments) = some groups' ∧
        Options.parse subject (groups'.flatMap Group.arguments) = .ok o := by
  obtain ⟨groups, hgroups⟩ := Options.exists_groupsOf?_of_read h
  obtain ⟨htakes, rfl⟩ := (Options.read_eq_ok_iff hgroups).mp h
  refine ⟨groups, hgroups, flatMap_arguments_of_groupsOf? hgroups, fun groups' horder => ?_⟩
  have htakes' := horder.takes htakes
  have hgroups' := groupsOf?_flatMap_arguments htakes'.1
  refine ⟨hgroups', (Options.read_eq_ok_iff hgroups').mpr ⟨htakes', ?_⟩⟩
  rw [horder.asked_eq]

/-- Values may look like options: `-q` is a directory here, and `--root` an organization. -/
theorem parse_reordered_values :
    let asked : Options :=
      { root := lit "a=b", force := true, organization := lit "--root", name := lit "shop" }
    Options.parse .project [lit "--root", lit "-q", [], lit "-o", lit "--root", lit "--root=a=b",
        lit "-f", lit "shop"] = .ok asked ∧
      Options.parse .project [[], lit "-f", lit "--root", lit "-q", lit "--root=a=b", lit "shop",
        lit "-o", lit "--root"] = .ok asked := by
  intro asked
  have hfirst : Options.parse .project [lit "--root", lit "-q", [], lit "-o", lit "--root",
      lit "--root=a=b", lit "-f", lit "shop"] = .ok asked := rfl
  obtain ⟨groups, hgroups, -, hreordered⟩ := parse_reordered hfirst
  obtain rfl : groups = [.root (lit "-q"), .positional [], .organization (lit "-o") (lit "--root"),
      .joinedRoot (lit "a=b"), .flag .force (lit "-f"), .positional (lit "shop")] :=
    Option.some.inj (hgroups.symm.trans (by decide))
  refine ⟨hfirst, (hreordered [.positional [], .flag .force (lit "-f"), .root (lit "-q"),
    .joinedRoot (lit "a=b"), .positional (lit "shop"),
    .organization (lit "-o") (lit "--root")] ?_).2⟩
  exact ⟨by decide, by decide, by decide, by decide⟩

end Order

end FlutterScaffold.CommandLine
