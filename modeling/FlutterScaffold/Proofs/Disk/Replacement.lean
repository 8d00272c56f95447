import FlutterScaffold.Proofs.Disk.Effects

/-!
# What replacing a file touches

A file is replaced through its sibling, which is written and then renamed. What can become different
by that are the places that the path and the sibling name, those at which shows what is written to
the sibling, and directories that were missing. Where the sibling is no link, a replacement that
succeeds leaves exactly the new bytes at the path, or the device that stood at the sibling; where it
is one, the bytes go through the link and the link takes the place of the file
(`replaceText_touches`).
-/

namespace FlutterScaffold.Disk

open Host (Extends Sound Writes)

variable {host ready written final : Host} {p q : Path} {content : Text}

/-- What a path names is removed, unless nothing is. A directory is left alone. -/
def Clears (q : Path) (host final : Host) : Prop :=
  final = host ∨ ∃ place, host.Names q place ∧ host.tree.get? place ≠ some .directory ∧
    host.Sets final place none

/-- Removing what a path names clears it or leaves everything alone. -/
theorem clears_remove (hs : host.Sound)
    (hdirectory : ∀ place, host.Names q place → host.tree.get? place ≠ some .directory) :
    Clears q host ((host.remove q).toOption.getD host) := by
  cases hremove : host.remove q with
  | error refusal => exact Or.inl rfl
  | ok final =>
    obtain ⟨place, entry, hnames, hget, hsets⟩ := hs.remove_ok hremove
    refine Or.inr ⟨place, hnames, hdirectory place hnames, hsets ?_⟩
    rintro rfl
    exact hdirectory place hnames hget

/-- Discarding an unfinished sibling clears it or leaves everything alone. -/
theorem clears_discardUnwritten (hs : host.Sound) {ε : Type} (q : Path) :
    Clears q host ((discardUnwritten q : Action ε Unit).run host).2 := by
  rw [run_discardUnwritten]
  cases hstatus : host.linkStatus q with
  | error refusal => exact Or.inl rfl
  | ok entry =>
    obtain ⟨place, hnames, hget⟩ := hs.linkStatus_iff.mp hstatus
    have hclears (hne : entry ≠ .directory) :
        Clears q host ((host.remove q).toOption.getD host) := by
      refine clears_remove hs fun other hother => ?_
      rw [hnames.det hother, hget]
      simpa using hne
    cases entry with
    | directory => exact Or.inl rfl
    | file content => exact hclears (by simp)
    | link target => exact hclears (by simp)
    | device device => exact hclears (by simp)

/-- How replacing a file ends, by how making sure of its directory has ended. -/
inductive Replaces (p : Path) (content : Text) (made : Except FileFault Unit × Host) :
    Except FileFault Unit × Host → Prop
  | unready {fault final} : made.1 = .error fault → Clears (temporary p) made.2 final →
    Replaces p content made (.error fault, final)
  | unwritten {refusal fault final} : made.2.writeFile (temporary p) content = .error refusal →
    Clears (temporary p) made.2 final → Replaces p content made (.error fault, final)
  | unmoved {written place refusal fault final} :
    Writes (temporary p) content made.2 written place →
    written.rename (temporary p) p = .error refusal → Clears (temporary p) written final →
      Replaces p content made (.error fault, final)
  | moved {written place final} : Writes (temporary p) content made.2 written place →
    written.rename (temporary p) p = .ok final → Replaces p content made (.ok (), final)

/-- Written bytes never make a directory of what the path names. -/
theorem not_directory_of_writes {place stop : Place} (h : Writes q content ready written place)
    (hs : ready.Sound) (hnames : written.Names q stop) :
    written.tree.get? stop ≠ some .directory := by
  intro hdirectory
  have hready : ready.tree.get? stop = some .directory := h.keeps_back.directories stop hdirectory
  have hleads := ((h.names_iff hs).mp hnames).leadsTo fun target heq => by simp [hready] at heq
  exact h.not_directory (hleads.det h.leads ▸ hready)

/-- Replacing a file ends in one of the ways that are told apart. -/
theorem replaces_replaceText (hs : host.Sound) (p : Path) (content : Text) :
    Replaces p content ((ensureDirectory (temporary p).parent).run host)
      ((replaceText p content).run host) := by
  have hready := (hs.extends_ensureDirectory (temporary p).parent).sound
  rw [run_replaceText, run_writeText]
  rcases hmade : (ensureDirectory (temporary p).parent).run host with ⟨fault | _, ready⟩
  · rw [hmade] at hready
    exact .unready rfl (clears_discardUnwritten hready _)
  · rw [hmade] at hready
    dsimp only at hready ⊢
    cases hwrite : ready.writeFile (temporary p) content with
    | error refusal => exact .unwritten hwrite (clears_discardUnwritten hready _)
    | ok written =>
      obtain ⟨place, hwrites⟩ := hready.exists_writes hwrite
      dsimp only
      cases hmove : written.rename (temporary p) p with
      | ok final => exact .moved hwrites hmove
      | error refusal =>
        exact .unmoved hwrites hmove (clears_remove hwrites.sound fun stop hstop =>
          not_directory_of_writes hwrites hready hstop)

/-! ## The sibling -/

/-- The sibling of a file has the file's name and an ending. -/
theorem fileName_temporary (p : Path) :
    Path.fileName (temporary p) = Path.fileName p ++ lit ".boilr-tmp" :=
  Path.fileName_append (by decide)

theorem mem_fileName_temporary (p : Path) : byte '-' ∈ Path.fileName (temporary p) := by
  rw [fileName_temporary]
  exact List.mem_append_right _ (by decide)

/-- The sibling's name can be looked up where it is short enough. -/
theorem fits_fileName_temporary (h : (Path.fileName (temporary p)).length ≤ maxName) :
    Fits (Path.fileName (temporary p)) := by
  have hlast := mem_fileName_temporary p
  exact ⟨fun heq => absurd (heq ▸ hlast) (by decide), fun heq => absurd (heq ▸ hlast)
    (by decide), h⟩

/-- The suffix of a sibling is read as it is, unless the path was read only in part. -/
theorem seen_temporary (h : (0 : Byte) ∉ p) : seen (temporary p) = temporary p :=
  seen_eq_self (by simpa [temporary, h] using (by decide : (0 : Byte) ∉ lit ".boilr-tmp"))

/-- Behind a zero byte, the sibling is the file itself. -/
theorem names_temporary_iff {place : Place} (h : (0 : Byte) ∈ p) :
    host.Names (temporary p) place ↔ host.Names p place := Host.finds_congr (seen_append_of_mem h _)

/-- A sibling that a path names has a name that is looked up. -/
theorem fits_of_names_temporary {sibling : Place} (hp : (0 : Byte) ∉ p)
    (h : host.Names (temporary p) sibling) : Fits (Path.fileName (temporary p)) := by
  have hlast := mem_fileName_temporary p
  obtain ⟨-, -, hwalk⟩ := Host.finds_iff.mp h
  rw [seen_temporary hp, Host.steps_of_fileName (List.ne_nil_of_mem hlast)] at hwalk
  obtain ⟨above, -, hbehind⟩ := hwalk.exists_of_append (List.cons_ne_nil _ _)
  generalize Path.fileName (temporary p) = name at hlast hbehind ⊢
  cases hbehind with
  | dot => exact absurd hlast (by decide)
  | up => exact absurd hlast (by decide)
  | down hfits => exact hfits
  | link hfits => exact hfits
  | last hfits => exact hfits

/-- The sibling of a file that a path leads to is named in the same directory. -/
theorem names_temporary_of_leadsTo {w : Place} (hp : (0 : Byte) ∉ p) (h : host.LeadsTo p w)
    (hw : host.tree.get? w ≠ some .directory) (hfits : Fits (Path.fileName (temporary p)))
    (hlength : (temporary p).length < maxPath) :
    ∃ sibling, host.Names (temporary p) sibling := by
  obtain ⟨hname, -, above, habove⟩ := h.exists_liesIn hw
  rw [seen_eq_self hp] at hname
  have hlies : host.LiesIn (temporary p) above :=
    habove.append hp (by decide) hname (by decide : Byte.slash ∉ lit ".boilr-tmp")
  have hseen := seen_temporary hp
  refine ⟨_, hlies.names ?_ ?_ ?_⟩ <;> rw [hseen]
  · exact List.ne_nil_of_mem (mem_fileName_temporary p)
  · exact hfits
  · exact hlength

/-! ## What a replacement changes -/

/-- Where clearing changes something, the path named that place. -/
theorem Clears.names {place : Place} (h : Clears q host final)
    (hne : final.tree.get? place ≠ host.tree.get? place) : host.Names q place := by
  rcases h with rfl | ⟨stop, hnames, -, hsets⟩
  · exact absurd rfl hne
  · obtain rfl : place = stop := Decidable.byContradiction fun h => hne (hsets.eq_of_ne h)
    exact hnames

/-- Nothing else is lost. -/
theorem Clears.eq_of_ne {sibling other : Place} (h : Clears q host final)
    (hsibling : host.Names q sibling) (hne : other ≠ sibling) :
    final.tree.get? other = host.tree.get? other :=
  Decidable.byContradiction fun hlost => hne (hsibling.det (h.names hlost))

/-- Nothing is lost where the path names nothing. -/
theorem Clears.eq_of_not_names (h : Clears q host final)
    (hnames : ∀ place, ¬ host.Names q place) : final = host :=
  h.resolve_right fun ⟨place, hplace, _⟩ => hnames place hplace

/-- Replacing a file touches the places that its path and the sibling stand for, and the other names
of the object that the sibling leads to. -/
theorem Replaces.names {made ended : Except FileFault Unit × Host}
    (h : Replaces p content made ended)
    (hs : made.2.Sound) {place : Place} (hne : ended.2.tree.get? place ≠ made.2.tree.get? place) :
    made.2.Names p place ∨ made.2.Names (temporary p) place ∨
      made.2.Affects (temporary p) place := by
  cases h with
  | unready _ hclears => exact Or.inr (Or.inl (hclears.names hne))
  | unwritten _ hclears => exact Or.inr (Or.inl (hclears.names hne))
  | @unmoved written through _ _ final hwrites _ hclears =>
    by_cases hshows : made.2.tree.Shows through place
    · exact Or.inr (Or.inr ⟨through, hwrites.leads, hshows⟩)
    · rw [← hwrites.frame place hshows] at hne
      exact Or.inr (Or.inl ((hwrites.names_iff hs).mp (hclears.names hne)))
  | @moved written through final hwrites hmove =>
    by_cases hshows : made.2.tree.Shows through place
    · exact Or.inr (Or.inr ⟨through, hwrites.leads, hshows⟩)
    rw [← hwrites.frame place hshows] at hne
    obtain ⟨old, new, entry, hold, hnew, hrenames⟩ := hwrites.sound.rename_ok hmove
    by_cases hplace : place = new
    · exact Or.inl ((hwrites.names_iff hs).mp (hplace ▸ hnew))
    by_cases hplace' : place = old
    · exact Or.inr (Or.inl ((hwrites.names_iff hs).mp (hplace' ▸ hold)))
    · exact absurd (hrenames.eq_of_ne hplace hplace') hne

/-- What a replacement that succeeds leaves at the places of the file and of its sibling: the file
holds what the sibling held when it was moved, and the sibling is gone, unless it is another name of
the file. -/
theorem Replaces.moved_spec {made : Except FileFault Unit × Host}
    (h : Replaces p content made (.ok (), final)) (hs : made.2.Sound) :
    ∃ place sibling, made.2.Names p place ∧ made.2.Names (temporary p) sibling ∧
      made.2.tree.get? place ≠ some .directory ∧ made.2.tree.get? sibling ≠ some .directory ∧
      final.here = made.2.here ∧
      (final.tree.get? sibling = none ∨
        made.2.tree.Adds final.tree ∧ final.tree.SameObject sibling place) ∧
      ((∃ target, made.2.tree.get? sibling = some (.link target) ∧
          final.tree.get? place = some (.link target)) ∨
        (∀ target, made.2.tree.get? sibling ≠ some (.link target)) ∧
          (final.tree.get? place = some (.file content) ∨
            ∃ device, made.2.tree.get? sibling = some (.device device) ∧
              final.tree.get? place = some (.device device)) ∧
          ∀ other, other ≠ place → ¬ made.2.tree.Shows sibling other →
            final.tree.get? other = made.2.tree.get? other) := by
  cases h with
  | @moved written through _ hwrites hmove =>
    obtain ⟨old, new, entry, hold, hnew, hrenames⟩ := hwrites.sound.rename_ok hmove
    have hold' := (hwrites.names_iff hs).mp hold
    have hnew' := (hwrites.names_iff hs).mp hnew
    refine ⟨new, old, hnew', hold', ?_, ?_, hrenames.here.trans hwrites.here, ?_, ?_⟩
    · exact fun hdirectory => hrenames.not_directory (hwrites.keeps.directories new hdirectory)
    · intro hdirectory
      have hkept := hwrites.keeps.directories old hdirectory
      rw [hrenames.get?_old] at hkept
      exact hrenames.ne_directory (Option.some.inj hkept)
    · rcases hrenames.gone with hnone | ⟨rfl, hsame⟩
      · exact Or.inl hnone
      · exact Or.inr ⟨hwrites.adds, hsame⟩
    by_cases hlink : ∃ target, made.2.tree.get? old = some (.link target)
    · obtain ⟨target, hlink⟩ := hlink
      have hkept := hwrites.keeps.links old target hlink
      rw [hrenames.get?_old] at hkept
      exact Or.inl ⟨target, hlink, hkept ▸ hrenames.get?_new⟩
    · have hnotLink (target : Path) : made.2.tree.get? old ≠ some (.link target) := fun heq =>
        hlink ⟨target, heq⟩
      obtain rfl : old = through := hwrites.leads.det (hold'.leadsTo hnotLink)
      refine Or.inr ⟨hnotLink, ?_, fun other hother hshows => ?_⟩
      · have hmoved := hrenames.get?_new.trans hrenames.get?_old.symm
        rcases hwrites.written with ⟨hfile, -⟩ | ⟨rfl, device, hdevice⟩
        · exact Or.inl (hmoved.trans (hfile old (Or.inl rfl)))
        · exact Or.inr ⟨device, hdevice, hmoved.trans hdevice⟩
      · rw [hrenames.eq_of_ne hother (fun heq => hshows (Or.inl heq)), hwrites.frame other hshows]

/-- What a file holds is read at its path, as long as the path led to no directory before. -/
theorem readFile_of_replaced {place sibling w : Place} (hs : ready.Sound)
    (hnames : ready.Names p place) (hplace : ready.tree.get? place ≠ some .directory)
    (hsibling : ready.tree.get? sibling ≠ some .directory)
    (hlink : ∀ target, ready.tree.get? sibling ≠ some (.link target))
    (hframe : ∀ other, other ≠ place → ¬ ready.tree.Shows sibling other →
      final.tree.get? other = ready.tree.get? other) (hhere : final.here = ready.here)
    (hget : final.tree.get? place = some (.file content)) (h : ready.LeadsTo p w)
    (hw : ready.tree.get? w ≠ some .directory) : final.readFile p = .ok content := by
  have hfinal : final.Names p place :=
    h.names_of_spared hs hw hnames
      (fun other hother => (hframe other (by rintro rfl; exact hplace hother)
        fun hshows => hsibling (hshows.get?_eq ▸ hother)).trans hother)
      (fun other target hne hother => (hframe other hne
        fun hshows => hlink target (hshows.get?_eq ▸ hother)).trans hother) hhere
  have hleads : final.LeadsTo p place := hfinal.leadsTo fun target heq => by simp [hget] at heq
  exact hleads.readFile_eq hget

/-! ## Replacing a file that is there -/

/-- What a path to a file names is there, be it the file or a link to it. -/
theorem ne_none_of_names (hs : host.Sound) (hfile : host.isFile p) {place : Place}
    (h : host.Names p place) : host.tree.get? place ≠ none := by
  obtain ⟨w, old, hleads, hw⟩ := hs.isFile_iff.mp hfile
  obtain ⟨stop, hstop, hthere⟩ := hleads.exists_names hs
  obtain rfl := h.det hstop
  rcases hthere with rfl | ⟨target, hget⟩
  · simp [hw]
  · simp [hget]

/-- The directory of a file is there, with whatever the file name is made longer by; only behind a
zero byte may the file stand in the stead of the directory. -/
theorem ensureDirectory_of_isFile (hs : host.Sound) (hfile : host.isFile p) :
    ∃ result, (ensureDirectory (temporary p).parent).run host = (result, host) ∧
      (result = .ok () ∨ (0 : Byte) ∈ p) := by
  obtain ⟨w, old, hleads, hget⟩ := hs.isFile_iff.mp hfile
  obtain ⟨hname, -, above, habove⟩ := hleads.exists_liesIn (by simp [hget])
  have hnotSeen := not_mem_seen p
  obtain ⟨rest, hp, hrest⟩ := exists_seen p
  have htemporary : temporary p = seen p ++ (rest ++ lit ".boilr-tmp") := by
    conv_lhs => rw [temporary, hp, List.append_assoc]
  by_cases hslash : Byte.slash ∈ rest
  · obtain ⟨more, rfl⟩ : ∃ more, rest = 0 :: more :=
      hrest.resolve_left fun hnil => by simp [hnil] at hslash
    have hseen : seen (temporary p).parent = seen p := by
      rw [htemporary]
      exact seen_parent hnotSeen
        (List.mem_append_left _ (List.mem_of_ne_of_mem (by decide) hslash))
    have hdir : (temporary p).parent ≠ [] := by
      intro hnil
      rw [hnil] at hseen
      exact hname (by rw [← hseen]; rfl)
    have hmake : directoriesToMake host (temporary p).parent = .error .notDirectory := by
      rw [directoriesToMake, Host.status_congr hseen, hs.status_iff.mpr ⟨w, hleads, hget⟩]
    rw [run_ensureDirectory host hdir, hmake]
    exact ⟨_, rfl, Or.inr (by rw [hp]; simp)⟩
  · rw [htemporary, Path.parent_append _ hname]
    · have hlength := (Host.finds_iff.mp hleads).2.1
      exact ⟨_, Host.ensureDirectory_of_isDirectory (habove.parent hs hlength), Or.inl rfl⟩
    · simpa [hslash] using (by decide : Byte.slash ∉ lit ".boilr-tmp")

/-- Writing succeeds at a place that is free or holds a file or the null device. -/
theorem exists_writeFile {place : Place} (h : host.LeadsTo q place)
    (hfree : host.tree.get? place = none ∨ (∃ old, host.tree.get? place = some (.file old)) ∨
      host.tree.get? place = some (.device .null)) :
    ∃ written, host.writeFile q content = .ok written := by
  rw [Host.writeFile, h]
  rcases hfree with hget | ⟨old, hget⟩ | hget <;> exact ⟨_, by rw [hget]; rfl⟩

/-- Anything but a directory is moved to the place of anything but a directory. -/
theorem exists_rename {old new : Place} {entry : Entry} (hold : host.Names q old)
    (hnew : host.Names p new) (hname : Path.fileName (seen p) ≠ [])
    (hfits : Fits (Path.fileName (seen p)))
    (hentry : host.tree.get? old = some entry) (hne : entry ≠ .directory)
    (htarget : host.tree.get? new ≠ some .directory) :
    ∃ final, host.rename q p = .ok final := by
  have hslash : Path.endsInSlash (seen p) = false := by simp [Path.endsInSlash, hname]
  have hdots : Host.endsInDots (seen p) = false := by
    simp [Host.endsInDots, Path.names_parent hname, hfits.1, hfits.2.1]
  have htrim : Text.trimEnd (· == Byte.slash) (seen p) = seen p := by
    refine Path.trimEnd_slash_eq_self hslash fun hnil => ?_
    have hnames := Path.names_trimEnd_slash (seen p)
    rw [hnil, Path.names_parent hname] at hnames
    simp at hnames
  rw [Host.rename, hold, htrim, Host.finds_seen.mpr hnew, hentry]
  simp only [bind, Except.bind, hdots, hslash, Bool.false_eq_true, if_false]
  cases entry with
  | directory => exact absurd rfl hne
  | _ =>
    simp only [if_neg htarget]
    split <;> exact ⟨_, rfl⟩

/-- A file that is not replaced stays as it is, and so does everything else but the sibling. If that
is not kept either, it is the full device, or the file itself: a path with a zero byte is read up to
there, and so is that of its sibling. -/
def Refuses (p : Path) (host final : Host) : Prop :=
  (final = host ∧ (host.isDirectory (temporary p) ∨ maxPath ≤ (temporary p).length ∨
      maxName < (Path.fileName (temporary p)).length)) ∨
    ∃ sibling, host.Names (temporary p) sibling ∧
      (host.tree.get? sibling = some (.device .full) ∨ (0 : Byte) ∈ p) ∧
      ∀ other, other ≠ sibling → final.tree.get? other = host.tree.get? other

/-- Behind a zero byte, what is taken away at the sibling is the file. -/
theorem refuses_of_clears (hs : host.Sound) (hfile : host.isFile p) (hp : (0 : Byte) ∈ p)
    (hclears : Clears (temporary p) host final) : Refuses p host final := by
  obtain ⟨w, old, hleads, -⟩ := hs.isFile_iff.mp hfile
  obtain ⟨stop, hstop, -⟩ := hleads.exists_names hs
  have hsibling := (names_temporary_iff hp).mpr hstop
  exact Or.inr ⟨stop, hsibling, Or.inr hp, fun other hne => hclears.eq_of_ne hsibling hne⟩

section NoLink

variable (hs : host.Sound) (hlink : ¬ host.NamesLink (temporary p))
include hs hlink

theorem not_link_of_names {sibling : Place} (h : host.Names (temporary p) sibling) (target : Path) :
    host.tree.get? sibling ≠ some (.link target) := fun hget =>
  hlink ((hs.namesLink_iff h).mpr ⟨target, hget⟩)

/-- Only a directory and the full device at the sibling keep it from being written. -/
theorem directory_or_full_of_writeFile_error {sibling : Place} {refusal : Refusal}
    (h : host.Names (temporary p) sibling)
    (hrefused : host.writeFile (temporary p) content = .error refusal) :
    host.tree.get? sibling = some .directory ∨
      host.tree.get? sibling = some (.device .full) := by
  have hnotLink := not_link_of_names hs hlink h
  have hwrite (hfree : host.tree.get? sibling = none ∨
      (∃ old, host.tree.get? sibling = some (.file old)) ∨
        host.tree.get? sibling = some (.device .null)) : False := by
    obtain ⟨written, hwritten⟩ : ∃ written, host.writeFile (temporary p) content = .ok written :=
      exists_writeFile (h.leadsTo hnotLink) hfree
    rw [hwritten] at hrefused
    simp at hrefused
  match hget : host.tree.get? sibling with
  | none => exact (hwrite (Or.inl hget)).elim
  | some .directory => exact Or.inl rfl
  | some (.file old) => exact (hwrite (Or.inr (Or.inl ⟨old, hget⟩))).elim
  | some (.link target) => exact absurd hget (hnotLink target)
  | some (.device .null) => exact (hwrite (Or.inr (Or.inr hget))).elim
  | some (.device .full) => exact Or.inr rfl

/-- A sibling that was written for a file can be moved to its place. -/
theorem exists_rename_of_writes (hfile : host.isFile p) {through : Place}
    (hwrites : Writes (temporary p) content host written through) :
    ∃ final, written.rename (temporary p) p = .ok final := by
  obtain ⟨w, old, hleads, hw⟩ := hs.isFile_iff.mp hfile
  obtain ⟨hname, hfits, -⟩ := hleads.exists_liesIn (by simp [hw])
  have hsibling : host.Names (temporary p) through := by
    obtain ⟨sibling, hsibling, rfl | ⟨target, hget⟩⟩ := hwrites.leads.exists_names hs
    · exact hsibling
    · exact absurd hget (not_link_of_names hs hlink hsibling target)
  obtain ⟨place, hnames, hplace⟩ := hleads.exists_names hs
  have htarget : written.tree.get? place ≠ some .directory := by
    intro hdirectory
    have hearlier := hwrites.keeps_back.directories place hdirectory
    rcases hplace with rfl | ⟨target, hget⟩
    · simp [hw] at hearlier
    · simp [hget] at hearlier
  obtain ⟨entry, hentry, hne⟩ :
      ∃ entry, written.tree.get? through = some entry ∧ entry ≠ .directory := by
    rcases hwrites.written with ⟨hget, -⟩ | ⟨rfl, device, hget⟩
    · exact ⟨_, hget through (Or.inl rfl), by simp⟩
    · exact ⟨_, hget, by simp⟩
  exact exists_rename ((hwrites.names_iff hs).mpr hsibling)
    ((hwrites.names_iff hs).mpr hnames) hname
    hfits hentry hne htarget

/-- Where a sibling is refused, the file stays as it is and the sibling says why, unless the sibling
is the full device, which is taken away, or the file itself. -/
theorem unwritten_of_isFile (hfile : host.isFile p) {refusal : Refusal}
    (hrefused : host.writeFile (temporary p) content = .error refusal)
    (hclears : Clears (temporary p) host final) : Refuses p host final := by
  obtain ⟨w, old, hleads, hw⟩ := hs.isFile_iff.mp hfile
  by_cases hp : (0 : Byte) ∈ p
  · exact refuses_of_clears hs hfile hp hclears
  by_cases hlong : maxPath ≤ (temporary p).length
  · refine Or.inl ⟨hclears.eq_of_not_names fun sibling hsibling => ?_, Or.inr (Or.inl hlong)⟩
    have hlength := (Host.finds_iff.mp hsibling).2.1
    rw [seen_temporary hp] at hlength
    exact absurd hlong (Nat.not_le.mpr hlength)
  by_cases hlength : maxName < (Path.fileName (temporary p)).length
  · refine Or.inl ⟨hclears.eq_of_not_names fun sibling hsibling => ?_, Or.inr (Or.inr hlength)⟩
    exact absurd hlength (Nat.not_lt.mpr (fits_of_names_temporary hp hsibling).2.2)
  obtain ⟨sibling, hsibling⟩ := names_temporary_of_leadsTo hp hleads (by simp [hw])
    (fits_fileName_temporary (Nat.le_of_not_lt hlength)) (Nat.lt_of_not_le hlong)
  rcases directory_or_full_of_writeFile_error hs hlink hsibling hrefused with hdirectory | hfull
  · refine Or.inl ⟨?_, Or.inl (hs.isDirectory_iff.mpr
      ⟨sibling, hsibling.leadsTo (not_link_of_names hs hlink hsibling), hdirectory⟩)⟩
    rcases hclears with rfl | ⟨other, hother, hne, -⟩
    · rfl
    · exact absurd (hsibling.det hother ▸ hdirectory) hne
  · exact Or.inr ⟨sibling, hsibling, Or.inl hfull, fun other hne => hclears.eq_of_ne hsibling hne⟩

end NoLink

/-- With no link at its sibling, a file is replaced or not at all. If it is not, everything stays,
because the sibling is a directory or has too long a name, or the sibling alone is lost. If it is,
the file holds the new bytes, or the device that stood at the sibling, and the sibling is gone
unless it is another name of the file; the other names of the sibling show the new bytes, and
nothing else changes. -/
theorem replaceText_of_isFile (hs : host.Sound) (hfile : host.isFile p)
    (hlink : ¬ host.NamesLink (temporary p)) (content : Text) :
    (∃ fault final, (replaceText p content).run host = (.error fault, final) ∧
        Refuses p host final) ∨
      ∃ final place sibling, (replaceText p content).run host = (.ok (), final) ∧
        host.Names p place ∧ host.Names (temporary p) sibling ∧
        (final.tree.get? sibling = none ∨ host.tree.SameObject sibling place) ∧
        (final.tree.get? place = some (.file content) ∧ final.readFile p = .ok content ∨
          ∃ device, host.tree.get? sibling = some (.device device) ∧
            final.tree.get? place = some (.device device)) ∧
        ∀ other, other ≠ place → ¬ host.tree.Shows sibling other →
          final.tree.get? other = host.tree.get? other := by
  have hreplaces := replaces_replaceText hs p content
  obtain ⟨made, hmade, hreason⟩ := ensureDirectory_of_isFile hs hfile
  rw [hmade] at hreplaces
  generalize (replaceText p content).run host = ended at hreplaces ⊢
  cases hreplaces with
  | unready hfault hclears =>
    have hp := hreason.resolve_left fun hok => by simp [hok] at hfault
    exact Or.inl ⟨_, _, rfl, refuses_of_clears hs hfile hp hclears⟩
  | unwritten hrefused hclears =>
    exact Or.inl ⟨_, _, rfl, unwritten_of_isFile hs hlink hfile hrefused hclears⟩
  | unmoved hwrites hrefused _ =>
    obtain ⟨moved, hmoved⟩ := exists_rename_of_writes hs hlink hfile hwrites
    rw [hmoved] at hrefused
    simp at hrefused
  | @moved written through final hwrites hmove =>
    have hmoved : Replaces p content (made, host) (.ok (), final) := .moved hwrites hmove
    obtain ⟨place, sibling, hnames, hsibling, hplace, hsiblingNot, hhere, hgone, hends⟩ :=
      hmoved.moved_spec hs
    obtain ⟨w, old, hleads, hw⟩ := hs.isFile_iff.mp hfile
    have hthere : host.tree.slot? place ≠ none :=
      mt Tree.get?_eq_none_iff.mpr (ne_none_of_names hs hfile hnames)
    rcases hends with ⟨target, hget, -⟩ | ⟨hnot, hget, hframe⟩
    · exact absurd hget (not_link_of_names hs hlink hsibling target)
    · refine Or.inr ⟨final, place, sibling, rfl, hnames, hsibling, hgone.imp_right ?_,
        hget.imp_left fun hfile => ⟨hfile, ?_⟩, hframe⟩
      · rintro ⟨hadds, hsame⟩
        exact (hadds.sameObject_iff hthere).mp hsame
      · exact readFile_of_replaced hs hnames hplace hsiblingNot hnot hframe hhere hfile hleads
          (by simp [hw])

/-- Replacing a file makes missing directories above it and, once they are there, changes nothing
but what stands at the places that the path and its sibling name, that the sibling leads to, and
that are other names of what it leads to. If no link stands at the sibling, it leads to no third
place, and a replacement that succeeds leaves a file with exactly the new bytes, or the device that
stood at the sibling. If a link stands there, it takes the place of the file. The sibling is gone
then, unless it is another name of the same object. -/
theorem replaceText_touches {host : Host} (hs : host.Sound) (p : Path) (content : Text) :
    let ready := ((ensureDirectory (temporary p).parent).run host).2
    let final := ((replaceText p content).run host).2
    (∀ place, final.tree.get? place ≠ host.tree.get? place →
      ready.Names p place ∨ ready.Names (temporary p) place ∨ ready.Affects (temporary p) place ∨
        host.tree.get? place = none ∧ final.tree.get? place = some .directory ∧
          ∃ n, ∃ above ∈ ancestors (temporary p).parent n,
            ready.Names (Text.trimEnd (· == Byte.slash) (seen above)) place) ∧
      (¬ ready.NamesLink (temporary p) →
        ∀ place, ready.LeadsTo (temporary p) place → ready.Names (temporary p) place) ∧
      (((replaceText p content).run host).1 = .ok () →
        ∃ place sibling, ready.Names p place ∧ ready.Names (temporary p) sibling ∧
          (final.tree.get? sibling = none ∨ final.tree.SameObject sibling place) ∧
          (ready.NamesLink (temporary p) → final.tree.get? place = ready.tree.get? sibling) ∧
          (¬ ready.NamesLink (temporary p) →
            final.tree.get? place = some (.file content) ∧
                (∀ w, ready.LeadsTo p w → ready.tree.get? w ≠ some .directory →
                  final.readFile p = .ok content) ∨
              ∃ device, ready.tree.get? sibling = some (.device device) ∧
                final.tree.get? place = some (.device device))) := by
  intro ready final
  have hextends := hs.extends_ensureDirectory (temporary p).parent
  have hready : ready.Sound := hextends.sound
  have hreplaces := replaces_replaceText hs p content
  refine ⟨fun place hne => ?_, fun hlink place hleads => ?_, fun hok => ?_⟩
  · by_cases hlater : final.tree.get? place = ready.tree.get? place
    · have hearlier : ready.tree.get? place ≠ host.tree.get? place := hlater ▸ hne
      obtain ⟨hdirectory, hnamed⟩ := hextends.directories place hearlier
      refine Or.inr (Or.inr (Or.inr ⟨?_, hlater.trans hdirectory, hnamed⟩))
      exact Classical.byContradiction fun hsome => hearlier (hextends.grows place hsome)
    · rcases hreplaces.names hready hlater with hnames | hnames | haffects
      · exact Or.inl hnames
      · exact Or.inr (Or.inl hnames)
      · exact Or.inr (Or.inr (Or.inl haffects))
  · obtain ⟨stop, hstop, rfl | hget⟩ := hleads.exists_names hready
    · exact hstop
    · exact absurd ((hready.namesLink_iff hstop).mpr hget) hlink
  · have hended : (replaceText p content).run host = (.ok (), final) := by
      rw [← hok]
      rfl
    rw [hended] at hreplaces
    obtain ⟨place, sibling, hnames, hsibling, hplace, hsiblingNot, hhere, hgone, hends⟩ :=
      hreplaces.moved_spec hready
    refine ⟨place, sibling, hnames, hsibling, hgone.imp_right And.right, fun hlink => ?_,
      fun hlink => ?_⟩
    · rcases hends with ⟨target, hget, hfinal⟩ | ⟨hnot, -, -⟩
      · rw [hfinal, hget]
      · obtain ⟨target, hget⟩ := (hready.namesLink_iff hsibling).mp hlink
        exact absurd hget (hnot target)
    · rcases hends with ⟨target, hget, -⟩ | ⟨hnot, hfinal, hframe⟩
      · exact absurd ((hready.namesLink_iff hsibling).mpr ⟨target, hget⟩) hlink
      · exact hfinal.imp_left fun hfile => ⟨hfile, fun w hleads hw => readFile_of_replaced hready
          hnames hplace hsiblingNot hnot hframe hhere hfile hleads hw⟩

/-- Through a link at the sibling, the bytes reach another file. -/
theorem replaceText_touches_linked_sibling :
    let tree := (((Tree.mk devices).put [lit "victim"] (.file (lit "precious"))).put [lit "a"]
      (.file (lit "old"))).put [lit "a.boilr-tmp"] (.link (lit "victim"))
    let host : Host := { tree := tree }
    let ready := ((ensureDirectory (temporary (lit "a")).parent).run host).2
    let final := ((replaceText (lit "a") (lit "new")).run host).2
    host.Sound ∧ ready.NamesLink (temporary (lit "a")) ∧
      final.tree.get? [lit "victim"] = some (.file (lit "new")) ∧
      ∃ place sibling, ready.Names (lit "a") place ∧ ready.Names (temporary (lit "a")) sibling ∧
        (final.tree.get? sibling = none ∨ final.tree.SameObject sibling place) ∧
        final.tree.get? place = ready.tree.get? sibling := by
  intro tree host ready final
  have hs : host.Sound := by
    have hvictim := (Host.sound_devices.sets_put (rfl : Tree.get? _ [lit "victim"].tail = _)
      (by decide) (.file (lit "precious"))).sound
    have hfile := (hvictim.sets_put (rfl : Tree.get? _ [lit "a"].tail = _) (by decide)
      (.file (lit "old"))).sound
    exact (hfile.sets_put (rfl : Tree.get? _ [lit "a.boilr-tmp"].tail = _) (by decide)
      (.link (lit "victim"))).sound
  have hlink : ready.NamesLink (temporary (lit "a")) := ⟨lit "victim", by decide⟩
  obtain ⟨-, -, hsuccess⟩ := replaceText_touches hs (lit "a") (lit "new")
  obtain ⟨place, sibling, hnames, hsibling, hgone, hmoved, -⟩ := hsuccess (by decide)
  exact ⟨hs, hlink, by decide, place, sibling, hnames, hsibling, hgone, hmoved hlink⟩

end FlutterScaffold.Disk
