import FlutterScaffold.Proofs.Disk.Objects
import FlutterScaffold.Proofs.Disk.Operations
import FlutterScaffold.Proofs.Disk.Places

/-!
# What requests do to a sound host

A request that succeeds on a sound host changes what stands at one place, moves it to another one,
or gives new bytes to one file, which show at all its names (`Sound.writeFile_ok`,
`Sound.remove_ok`, `Sound.rename_ok`, `Sound.makeDirectory_ok`). Making sure of a directory adds
directories that were missing above it and changes nothing else (`Sound.extends_ensureDirectory`).
-/

namespace FlutterScaffold.Disk

/-! ## Runs -/

/-- A request is carried out or ends in its fault. -/
theorem run_perform {ε : Type} (request : Host → Except Refusal Host) (fault : Refusal → ε)
    (host : Host) :
    (perform request fault).run host =
      match request host with
      | .ok host' => (.ok (), host')
      | .error refusal => (.error (fault refusal), host) := by
  rw [perform, run_bind]
  simp only [show (get : Action ε Host).run host = (.ok host, host) from rfl]
  cases request host <;> rfl

/-- The directories that are missing are made from the top. -/
theorem run_ensureDirectory (host : Host) {dir : Path} (hdir : dir ≠ []) :
    (ensureDirectory dir).run host =
      match directoriesToMake host dir with
      | .error refusal => (.error ⟨.directoryNotMade refusal, dir⟩, host)
      | .ok missing =>
        match (missing.reverse.forM fun above => perform (requireDirectory above) fun refusal =>
          (⟨.directoryNotMade refusal, dir⟩ : FileFault)).run host with
        | (.error fault, host') => (.error fault, host')
        | (.ok _, host') =>
          if host'.isDirectory dir then (.ok (), host')
          else (.error ⟨.notADirectory, dir⟩, host') := by
  rw [ensureDirectory, if_neg (by simpa using hdir), run_bind]
  simp only [show (get : Action FileFault Host).run host = (.ok host, host) from rfl]
  cases directoriesToMake host dir with
  | error refusal => rfl
  | ok missing =>
    dsimp only
    rw [run_bind]
    generalize (missing.reverse.forM fun above => perform (requireDirectory above) fun refusal =>
      (⟨.directoryNotMade refusal, dir⟩ : FileFault) : Action FileFault Unit) = making
    rcases making.run host with ⟨_ | _, host'⟩
    · rfl
    · dsimp only
      rw [run_bind]
      simp only [show (get : Action FileFault Host).run host' = (.ok host', host') from rfl]
      split <;> rfl

/-- The directory above a file is ensured before the file is written. -/
theorem run_writeText (host : Host) (p : Path) (content : Text) :
    (writeText p content true).run host =
      match (ensureDirectory p.parent).run host with
      | (.error fault, ready) => (.error fault, ready)
      | (.ok _, ready) =>
        match ready.writeFile p content with
        | .ok written => (.ok (), written)
        | .error refusal =>
          (.error ⟨if refusal = .noSpace then .notWritten else .unwritable, p⟩, ready) := by
  change (ensureDirectory p.parent >>= fun _ => perform (·.writeFile p content) fun refusal =>
    (⟨if refusal = .noSpace then .notWritten else .unwritable, p⟩ : FileFault)).run host = _
  rw [run_bind]
  rcases (ensureDirectory p.parent).run host with ⟨_ | _, ready⟩
  · rfl
  · exact run_perform _ _ ready

/-- Discarding an entry does not fail. -/
theorem run_discard {ε : Type} (host : Host) (p : Path) :
    (discard p : Action ε Unit).run host = (.ok (), (host.remove p).toOption.getD host) := by
  rw [discard, run_bind]
  simp only [show (get : Action ε Host).run host = (.ok host, host) from rfl]
  cases host.remove p <;> rfl

/-- Discarding what could not be written keeps a directory and does not fail. -/
theorem run_discardUnwritten {ε : Type} (host : Host) (p : Path) :
    (discardUnwritten p : Action ε Unit).run host =
      (.ok (), match host.linkStatus p with
        | .ok .directory => host
        | .ok _ => (host.remove p).toOption.getD host
        | .error _ => host) := by
  rw [discardUnwritten, run_bind]
  simp only [show (get : Action ε Host).run host = (.ok host, host) from rfl]
  cases host.linkStatus p with
  | error refusal => rfl
  | ok entry =>
    cases entry with
    | directory => rfl
    | file content => exact run_discard host p
    | link target => exact run_discard host p
    | device device => exact run_discard host p

/-- A file is replaced in four ways: nothing is written, or what is written is moved or not. -/
theorem run_replaceText (host : Host) (p : Path) (content : Text) :
    (replaceText p content).run host =
      match (writeText (temporary p) content true).run host with
      | (.error fault, ready) =>
        (.error fault, ((discardUnwritten (temporary p) : Action FileFault Unit).run ready).2)
      | (.ok _, written) =>
        match written.rename (temporary p) p with
        | .ok moved => (.ok (), moved)
        | .error refusal =>
          (.error ⟨.notReplaced refusal, p⟩, (written.remove (temporary p)).toOption.getD
            written) := by
  change ((tryCatch (writeText (temporary p) content true) fun fault =>
      discardUnwritten (temporary p) >>= fun _ => throw fault :
        Action FileFault Unit) >>= fun _ => do
    match (← get).rename (temporary p) p with
    | .ok host => set host
    | .error refusal =>
      discard (temporary p)
      throw ⟨.notReplaced refusal, p⟩).run host = _
  rw [run_bind]
  rcases hwrite : (writeText (temporary p) content true).run host with ⟨fault | _, written⟩
  · rw [run_tryCatch_error hwrite]
    dsimp only
    rw [run_bind, run_discardUnwritten]
    rfl
  · rw [run_tryCatch_ok hwrite]
    dsimp only
    rw [run_bind]
    simp only [show (get : Action FileFault Host).run written = (.ok written, written) from rfl]
    cases written.rename (temporary p) p with
    | ok moved => rfl
    | error refusal =>
      dsimp only
      rw [run_bind, run_discard]
      rfl

namespace Host

variable {host host' host'' : Host} {p q dir : Path} {place : Place} {content : Text}

/-! ## Changes at one place -/

/-- A sound host in which one place holds what it is set to, and every other one what it held. -/
structure Sets (host host' : Host) (place : Place) (entry : Option Entry) : Prop where
  sound : host'.Sound
  here : host'.here = host.here
  get? : ∀ other, host'.tree.get? other = if other = place then entry else host.tree.get? other

/-- What is no directory stands below one, as the root is a directory. -/
theorem exists_cons_of_ne_directory (h : host.tree.get? place ≠ some .directory) :
    ∃ name above, place = name :: above :=
  List.exists_cons_of_ne_nil fun hnil => h (by rw [hnil, Tree.get?_nil])

section Sets

variable (hs : host.Sound) (habove : host.tree.get? place.tail = some .directory)
  (hplace : host.tree.get? place ≠ some .directory)
include hs habove hplace

/-- A change at one place keeps a host sound. -/
private theorem Sound.sets {tree : Tree} {entry : Option Entry} (hclosed : tree.Closed)
    (hget : ∀ other, tree.get? other = if other = place then entry else host.tree.get? other) :
    host.Sets { host with tree := tree } place entry := by
  have hhere : host.here ≠ place := by
    rintro rfl
    exact hplace hs.here
  exact ⟨⟨hclosed, (hget host.here).trans ((if_neg hhere).trans hs.here)⟩, rfl, hget⟩

/-- Putting an entry below a directory sets its place. -/
theorem Sound.sets_put (entry : Entry) :
    host.Sets { host with tree := host.tree.put place entry } place (some entry) := by
  obtain ⟨name, above, rfl⟩ := exists_cons_of_ne_directory hplace
  exact hs.sets habove hplace (hs.closed.put habove hplace entry)
    (hs.closed.get?_put habove hplace entry)

/-- Erasing an entry that is no directory clears its place. -/
theorem Sound.sets_erase :
    host.Sets { host with tree := host.tree.erase place } place none := by
  obtain ⟨name, above, rfl⟩ := exists_cons_of_ne_directory hplace
  exact hs.sets habove hplace (hs.closed.erase habove hplace) (hs.closed.get?_erase habove hplace)

/-- A place that becomes another name of an object shows what the object shows. -/
theorem Sound.sets_share (slot : Slot) :
    host.Sets { host with tree := host.tree.share place slot } place
      (some (host.tree.entryOf slot)) := by
  obtain ⟨name, above, rfl⟩ := exists_cons_of_ne_directory hplace
  exact hs.sets habove hplace (hs.closed.share habove hplace slot)
    (hs.closed.get?_share habove hplace slot)

end Sets

/-- What is put where nothing stood is an object of its own. -/
theorem Sound.adds_put (hs : host.Sound) (habove : host.tree.get? place.tail = some .directory)
    (hplace : host.tree.get? place = none) (entry : Entry) :
    host.tree.Adds (host.tree.put place entry) := by
  obtain ⟨name, above, rfl⟩ := exists_cons_of_ne_directory
    (by simp [hplace] : host.tree.get? place ≠ some .directory)
  exact Tree.adds_put hs.closed habove hplace entry

/-- Other places hold what they held. -/
theorem Sets.eq_of_ne {entry : Option Entry} {other : Place} (h : host.Sets host' place entry)
    (hne : other ≠ place) : host'.tree.get? other = host.tree.get? other := by
  rw [h.get?, if_neg hne]

/-- The place that is set holds what it is set to. -/
theorem Sets.get?_self {entry : Option Entry} (h : host.Sets host' place entry) :
    host'.tree.get? place = entry := by
  rw [h.get?, if_pos rfl]

/-! ## Single requests -/

/-- What is written to a path shows at a place. -/
def Affects (host : Host) (p : Path) (place : Place) : Prop :=
  ∃ through, host.LeadsTo p through ∧ host.tree.Shows through place

/-- Bytes written to the place that a path leads to show at all names of the file, unless a device
stands there, which keeps none. -/
structure Writes (p : Path) (content : Text) (host host' : Host) (place : Place) : Prop where
  sound : host'.Sound
  here : host'.here = host.here
  leads : host.LeadsTo p place
  adds : host.tree.Adds host'.tree
  frame : ∀ other, ¬ host.tree.Shows place other →
    host'.tree.get? other = host.tree.get? other
  written : (∀ other, host.tree.Shows place other →
      host'.tree.get? other = some (.file content)) ∧
        (host.tree.get? place = none ∨ ∃ old, host.tree.get? place = some (.file old)) ∨
    host' = host ∧ ∃ device, host.tree.get? place = some (.device device)

/-- A file that a path leads to is made where nothing stood. -/
theorem Sound.writes_put (hs : host.Sound) (hleads : host.LeadsTo p place)
    (hnone : host.tree.get? place = none) (content : Text) :
    Writes p content host { host with tree := host.tree.put place (.file content) } place := by
  have hsets := hs.sets_put (hs.above hleads) (by simp [hnone]) (.file content)
  have hadds := hs.adds_put (hs.above hleads) hnone (.file content)
  have hself {other : Place} (hshows : host.tree.Shows place other) : other = place :=
    hshows.resolve_right fun hsame => hsame.symm.2.1 (Tree.get?_eq_none_iff.mp hnone)
  refine ⟨hsets.sound, rfl, hleads, hadds, fun other hother => hsets.eq_of_ne ?_,
    Or.inl ⟨fun other hother => ?_, Or.inl hnone⟩⟩
  · exact fun heq => hother (Or.inl heq)
  · rw [hself hother]
    exact hsets.get?_self

/-- New bytes in a file keep a host sound. -/
theorem Sound.rewrite (hs : host.Sound) (place : Place) (content : Text) :
    ({ host with tree := host.tree.rewrite place content } : Host).Sound := by
  have hslots := host.tree.slot?_rewrite place content
  refine ⟨hs.closed.of_slot? hslots, ?_⟩
  rw [Tree.get?_eq_directory_iff, hslots, ← Tree.get?_eq_directory_iff]
  exact hs.here

/-- The bytes of a file that a path leads to are replaced at all names of the file. -/
theorem Sound.writes_rewrite (hs : host.Sound) (hleads : host.LeadsTo p place) {old : Text}
    (hfile : host.tree.get? place = some (.file old)) (content : Text) :
    Writes p content host { host with tree := host.tree.rewrite place content } place := by
  have hget := Tree.get?_rewrite hfile content
  have hshows (other : Place) :
      host.tree.Shows place other ↔ host.tree.SameObject other place := by
    refine ⟨?_, Or.inr⟩
    rintro (rfl | hsame)
    · exact Tree.sameObject_self hfile (by simp)
    · exact hsame
  refine ⟨hs.rewrite place content, rfl, hleads, host.tree.adds_rewrite place content,
    fun other hother => ?_, Or.inl ⟨fun other hother => ?_, Or.inr ⟨old, hfile⟩⟩⟩
  · exact (hget other).trans (if_neg (mt (hshows other).mpr hother))
  · exact (hget other).trans (if_pos ((hshows other).mp hother))

/-- A write that succeeds makes a file, replaces its bytes, or is swallowed by a device. -/
theorem Sound.exists_writes (hs : host.Sound) (h : host.writeFile p content = .ok host') :
    ∃ place, Writes p content host host' place := by
  rw [writeFile] at h
  cases hlocate : locate host.tree host.here true p with
  | error refusal => simp [hlocate, bind, Except.bind] at h
  | ok spot =>
    obtain ⟨hleads, hentry⟩ := hs.finds hlocate
    rw [hlocate] at h
    simp only [bind, Except.bind] at h
    have hdevice {device : Device} (h : spot.entry = some (.device device)) :
        Writes p content host host spot.place := by
      rw [hentry] at h
      exact ⟨hs, rfl, hleads, .refl _, fun _ _ => rfl, Or.inr ⟨rfl, device, h⟩⟩
    refine ⟨spot.place, ?_⟩
    split at h
    · rename_i hnone
      exact Except.ok.inj h ▸ hs.writes_put hleads (hentry.symm.trans hnone) content
    · rename_i old hfile
      exact Except.ok.inj h ▸ hs.writes_rewrite hleads (hentry.symm.trans hfile) content
    · rename_i hnull
      exact Except.ok.inj h ▸ hdevice hnull
    · rename_i hfull
      split at h
      · exact Except.ok.inj h ▸ hdevice hfull
      · simp at h
    · simp at h

namespace Writes

variable (h : Writes p content host host' place)
include h

/-- No directory stands at a place that is written to. -/
theorem not_directory : host.tree.get? place ≠ some .directory := by
  rcases h.written with ⟨-, hfree | ⟨old, hfile⟩⟩ | ⟨-, device, hdevice⟩ <;> simp [*]

/-- Writing keeps all ways. -/
theorem keeps : host.tree.Keeps host'.tree := h.adds.keeps

/-- What is neither a file nor a device stood there before. -/
theorem get?_back {other : Place} {entry : Entry} (hother : host'.tree.get? other = some entry)
    (hentry : ∀ content, entry ≠ .file content) : host.tree.get? other = some entry := by
  rcases h.written with ⟨hfile, -⟩ | ⟨rfl, -⟩
  · rw [← h.frame other, hother]
    intro hshows
    rw [hfile other hshows] at hother
    exact hentry content (Option.some.inj hother).symm
  · exact hother

/-- Ways are the same before and after. -/
theorem keeps_back : host'.tree.Keeps host.tree where
  directories _ hother := h.get?_back hother (by simp)
  links _ _ hother := h.get?_back hother (by simp)

/-- Paths name the same places before and after. -/
theorem names_iff {stop : Place} (hs : host.Sound) : host'.Names q stop ↔ host.Names q stop :=
  ⟨fun hnames => hnames.of_keeps h.sound h.keeps_back h.here.symm,
    fun hnames => hnames.of_keeps hs h.keeps h.here⟩

end Writes

/-- What is removed stood at the place that the path names. -/
theorem Sound.remove_ok (hs : host.Sound) (h : host.remove p = .ok host') :
    ∃ place entry, host.Names p place ∧ host.tree.get? place = some entry ∧
      (entry ≠ .directory → host.Sets host' place none) := by
  rw [remove] at h
  cases hlocate : locate host.tree host.here false p with
  | error refusal => simp [hlocate, bind, Except.bind] at h
  | ok spot =>
    obtain ⟨hnames, hentry⟩ := hs.finds hlocate
    rw [hlocate] at h
    simp only [bind, Except.bind] at h
    cases hget : spot.entry with
    | none => simp [hget] at h
    | some entry =>
      rw [hget] at hentry
      refine ⟨spot.place, entry, hnames, hentry.symm, fun hne => ?_⟩
      have herase := hs.sets_erase (hs.above hnames) (by simpa [← hentry] using hne)
      cases entry with
      | directory => exact absurd rfl hne
      | file content => simp only [hget, Except.ok.injEq] at h; exact h ▸ herase
      | link target => simp only [hget, Except.ok.injEq] at h; exact h ▸ herase
      | device device => simp only [hget, Except.ok.injEq] at h; exact h ▸ herase

/-- A directory is made where nothing stood. -/
theorem Sound.makeDirectory_ok (hs : host.Sound) (h : host.makeDirectory p = .ok host') :
    ∃ place, host.Names (Text.trimEnd (· == Byte.slash) (seen p)) place ∧
      host.tree.get? place = none ∧ host.tree.Adds host'.tree ∧
      host.Sets host' place (some .directory) := by
  rw [makeDirectory] at h
  cases hlocate : locate host.tree host.here false (Text.trimEnd (· == Byte.slash) (seen p)) with
  | error refusal => simp [hlocate, bind, Except.bind] at h
  | ok spot =>
    obtain ⟨hnames, hentry⟩ := hs.finds hlocate
    rw [hlocate] at h
    simp only [bind, Except.bind] at h
    split at h
    · rename_i hnone
      rw [hnone] at hentry
      have habove := hs.above hnames
      obtain rfl := Except.ok.inj h
      exact ⟨spot.place, hnames, hentry.symm, hs.adds_put habove hentry.symm .directory,
        hs.sets_put habove (by simp [← hentry]) .directory⟩
    · simp at h

/-- What stands at another place once it is moved there from an old one. -/
theorem Sound.get?_move (hs : host.Sound) {old new : Place} {entry : Entry}
    (hold : host.Names p old) (hnew : host.Names q new) (hentry : host.tree.get? old = some entry)
    (hdirectory : entry ≠ .directory) (htarget : host.tree.get? new ≠ some .directory)
    (hne : new ≠ old) (other : Place) :
    (host.tree.move old new).get? other =
      if other = new then some entry else if other = old then none else host.tree.get? other := by
  obtain ⟨slot, hslot, rfl⟩ := Option.map_eq_some_iff.mp hentry
  have hplain : host.tree.get? old ≠ some .directory := by simpa [hentry] using hdirectory
  have herase := hs.sets_erase (hs.above hold) hplain
  have habove : host.tree.get? new.tail = some .directory := hs.above hnew
  have habove' : (host.tree.erase old).get? new.tail = some .directory := by
    rw [herase.get?, if_neg fun heq : new.tail = old => hplain (heq ▸ habove), habove]
  have htarget' : (host.tree.erase old).get? new ≠ some .directory := by
    rw [herase.get?, if_neg hne]
    exact htarget
  have hshare := herase.sound.sets_share habove' htarget' slot
  have hentries : (host.tree.erase old).entryOf = host.tree.entryOf := host.tree.entryOf_change _ _
  have hmove := hshare.get? other
  rw [herase.get?, hentries] at hmove
  rw [Tree.move, hslot]
  exact hmove

/-- What stands at one place is moved to another one, where no directory stands. Two names of one
object both stay, and nothing is done. -/
structure Renames (host host' : Host) (old new : Place) (entry : Entry) : Prop where
  here : host'.here = host.here
  get?_old : host.tree.get? old = some entry
  ne_directory : entry ≠ .directory
  not_directory : host.tree.get? new ≠ some .directory
  moved : host.tree.SameObject old new ∧ host' = host ∨
    new ≠ old ∧ ∀ other, host'.tree.get? other =
      if other = new then some entry else if other = old then none else host.tree.get? other

namespace Renames

variable {old new other : Place} {entry : Entry} (h : Renames host host' old new entry)
include h

/-- What is moved stands at the new place then. -/
theorem get?_new : host'.tree.get? new = some entry := by
  rcases h.moved with ⟨hsame, rfl⟩ | ⟨-, hget⟩
  · rw [← hsame.get?_eq, h.get?_old]
  · rw [hget, if_pos rfl]

/-- Renaming changes nothing but the two places. -/
theorem eq_of_ne (hnew : other ≠ new) (hold : other ≠ old) :
    host'.tree.get? other = host.tree.get? other := by
  rcases h.moved with ⟨-, rfl⟩ | ⟨-, hget⟩
  · rfl
  · rw [hget, if_neg hnew, if_neg hold]

/-- What is moved no longer stands at the old place, unless that is another name of what stands at
the new one. -/
theorem gone : host'.tree.get? old = none ∨ host' = host ∧ host.tree.SameObject old new := by
  rcases h.moved with ⟨hsame, rfl⟩ | ⟨hne, hget⟩
  · exact Or.inr ⟨rfl, hsame⟩
  · exact Or.inl (by rw [hget, if_neg (Ne.symm hne), if_pos rfl])

end Renames

/-- A request to rename that succeeds moves what the one path names to the place that the other one
names. -/
theorem Sound.rename_ok (hs : host.Sound) (h : host.rename p q = .ok host') :
    ∃ old new entry, host.Names p old ∧ host.Names q new ∧ Renames host host' old new entry := by
  rw [rename] at h
  cases hold : locate host.tree host.here false p with
  | error refusal => simp [hold, bind, Except.bind] at h
  | ok old =>
    cases hnew : locate host.tree host.here false (Text.trimEnd (· == Byte.slash) (seen q)) with
    | error refusal => simp [hold, hnew, bind, Except.bind] at h
    | ok new =>
      obtain ⟨hnames, hentry⟩ := hs.finds hold
      obtain ⟨hnames', hentry'⟩ := hs.finds hnew
      rw [hold] at h
      simp only [hnew, bind, Except.bind] at h
      split at h
      · simp at h
      split at h
      · simp at h
      · simp at h
      rename_i target entry hdirectory hsome
      split at h
      · simp at h
      rename_i hslash
      split at h
      · simp at h
      rename_i htarget
      rw [hsome] at hentry
      rw [hentry'] at htarget
      have hne : Text.trimEnd (· == Byte.slash) (seen q) ≠ [] := fun hnil =>
        (finds_iff.mp hnames').1 (by rw [hnil]; rfl)
      rw [Path.trimEnd_slash_eq_self (by simpa using hslash) hne] at hnames'
      have hnew' := finds_seen.mp hnames'
      refine ⟨old.place, new.place, entry, hnames, hnew', ?_⟩
      split at h
      · rename_i hsame
        obtain rfl := Except.ok.inj h
        exact ⟨rfl, hentry.symm, hdirectory, htarget, Or.inl ⟨hsame, rfl⟩⟩
      · rename_i hsame
        obtain rfl := Except.ok.inj h
        have hplaces : new.place ≠ old.place := by
          intro heq
          rw [heq] at hsame
          exact hsame (Tree.sameObject_self hentry.symm hdirectory)
        exact ⟨rfl, hentry.symm, hdirectory, htarget, Or.inr ⟨hplaces,
          hs.get?_move hnames hnew' hentry.symm hdirectory htarget hplaces⟩⟩

/-! ## Making sure of a directory -/

/-- A sound host with directories where nothing stood, all of them at or above a path. -/
structure Extends (dir : Path) (host host' : Host) : Prop where
  sound : host'.Sound
  here : host'.here = host.here
  grows : host.tree.Grows host'.tree
  adds : host.tree.Adds host'.tree
  directories : ∀ place, host'.tree.get? place ≠ host.tree.get? place →
    host'.tree.get? place = some .directory ∧
      ∃ n, ∃ above ∈ ancestors dir n,
        host'.Names (Text.trimEnd (· == Byte.slash) (seen above)) place

/-- A host extends itself. -/
theorem Sound.extends_refl (hs : host.Sound) : Extends dir host host :=
  ⟨hs, rfl, fun _ _ => rfl, .refl _, fun _ hne => absurd rfl hne⟩

/-- Directories may be added in several steps. -/
theorem Extends.trans (h : Extends dir host host') (h' : Extends dir host' host'') :
    Extends dir host host'' where
  sound := h'.sound
  here := h'.here.trans h.here
  grows := h.grows.trans h'.grows
  adds := h.adds.trans h'.adds
  directories place hne := by
    by_cases hlater : host''.tree.get? place = host'.tree.get? place
    · rw [hlater] at hne ⊢
      obtain ⟨hget, n, above, habove, hnames⟩ := h.directories place hne
      exact ⟨hget, n, above, habove, hnames.of_keeps h.sound h'.grows.keeps h'.here⟩
    · exact h'.directories place hlater

/-- Requiring a directory above a path adds it at most. -/
theorem Sound.extends_requireDirectory (hs : host.Sound) {above : Path} {n : Nat}
    (habove : above ∈ ancestors dir n) (h : requireDirectory above host = .ok host') :
    Extends dir host host' := by
  rw [requireDirectory] at h
  split at h
  · split at h
    · exact Except.ok.inj h ▸ hs.extends_refl
    · simp at h
  · rename_i hresult
    obtain ⟨place, hnames, hnone, hadds, hsets⟩ := hs.makeDirectory_ok h
    have hgrows : host.tree.Grows host'.tree := fun other hsome =>
      hsets.eq_of_ne (by rintro rfl; exact hsome hnone)
    refine ⟨hsets.sound, hsets.here, hgrows, hadds, fun other hne => ?_⟩
    obtain rfl : other = place := Decidable.byContradiction fun h => hne (hsets.eq_of_ne h)
    exact ⟨hsets.get?_self, n, above, habove, hnames.of_keeps hs hgrows.keeps hsets.here⟩

/-- Requiring several directories above a path adds them at most. -/
theorem Sound.extends_forM (hs : host.Sound) {ε : Type} (fault : Refusal → ε) {missing : List Path}
    (h : ∀ above ∈ missing, ∃ n, above ∈ ancestors dir n) :
    Extends dir host
      ((missing.forM fun above => perform (requireDirectory above) fault).run host).2 := by
  induction missing generalizing host with
  | nil => exact hs.extends_refl
  | cons above missing ih =>
    obtain ⟨⟨n, habove⟩, hmissing⟩ := List.forall_mem_cons.mp h
    change Extends dir host ((perform (requireDirectory above) fault >>= fun _ =>
      missing.forM fun above => perform (requireDirectory above) fault).run host).2
    rw [run_bind, run_perform]
    cases hrequire : requireDirectory above host with
    | error refusal => exact hs.extends_refl
    | ok host' =>
      have hfirst := hs.extends_requireDirectory habove hrequire
      exact hfirst.trans (ih hfirst.sound hmissing)

/-- The directories that are missing are among those that are looked at. -/
theorem mem_of_mem_missingDirectories {room : Nat} {paths missing : List Path}
    (h : missingDirectories host room paths = .ok missing) : ∀ above ∈ missing, above ∈ paths := by
  induction paths generalizing room missing with
  | nil => simp [missingDirectories] at h; simp [← h]
  | cons p above ih =>
    rw [missingDirectories] at h
    have hself : ∀ q ∈ (if Host.endsInDots p then [] else [p]), q ∈ p :: above := by
      split <;> simp
    generalize (if Host.endsInDots p then [] else [p]) = self at h hself
    split at h
    · simp [bind, Except.bind] at h
    · cases above with
      | nil => exact Except.ok.inj h ▸ hself
      | cons q rest =>
        dsimp only [bind, Except.bind] at h
        split at h
        · exact Except.ok.inj h ▸ hself
        · simp at h
        · split at h
          · cases hmore : missingDirectories host (room - self.length) (q :: rest) with
            | error refusal => simp [hmore] at h
            | ok more =>
              rw [hmore] at h
              obtain rfl : self ++ more = missing := Except.ok.inj h
              exact List.forall_mem_append.mpr
                ⟨hself, fun d hd => List.mem_cons_of_mem _ (ih hmore d hd)⟩
          · simp at h

/-- The directories to be made stand above the path, or are the path itself. -/
theorem mem_of_directoriesToMake {missing : List Path}
    (h : directoriesToMake host dir = .ok missing) :
    ∀ above ∈ missing, ∃ n, above ∈ ancestors dir n := by
  rw [directoriesToMake] at h
  split at h
  · simp [← Except.ok.inj h]
  · simp at h
  · split at h
    · intro above habove
      have hmem := mem_of_mem_missingDirectories h above habove
      split at hmem
      · exact ⟨_ + 1, List.mem_cons_of_mem _ hmem⟩
      · exact ⟨_, hmem⟩
    · simp at h

/-- Making sure of a directory adds directories at or above it, and nothing else. -/
theorem Sound.extends_ensureDirectory (hs : host.Sound) (dir : Path) :
    Extends dir host ((ensureDirectory dir).run host).2 := by
  by_cases hdir : dir = []
  · rw [ensureDirectory, if_pos (by simpa using hdir)]
    exact hs.extends_refl
  · rw [run_ensureDirectory host hdir]
    cases hmake : directoriesToMake host dir with
    | error refusal => exact hs.extends_refl
    | ok missing =>
      have hextends := hs.extends_forM
        (fun refusal => (⟨.directoryNotMade refusal, dir⟩ : FileFault))
        (fun above habove => mem_of_directoriesToMake hmake above (List.mem_reverse.mp habove))
      dsimp only
      split
      · rename_i heq
        rwa [heq] at hextends
      · rename_i heq
        rw [heq] at hextends
        split <;> exact hextends

/-- It is there when that succeeds. -/
theorem isDirectory_of_ensureDirectory (h : (ensureDirectory dir).run host = (.ok (), host'))
    (hdir : dir ≠ []) : host'.isDirectory dir := by
  rw [run_ensureDirectory host hdir] at h
  split at h
  · exact absurd (congrArg Prod.fst h) (by simp)
  · split at h
    · exact absurd (congrArg Prod.fst h) (by simp)
    · split at h
      · rename_i hthere
        obtain rfl : _ = host' := congrArg Prod.snd h
        exact hthere
      · exact absurd (congrArg Prod.fst h) (by simp)

/-- Nothing is to be done where the directory is there. -/
theorem ensureDirectory_of_isDirectory (h : dir = [] ∨ host.isDirectory dir) :
    (ensureDirectory dir).run host = (.ok (), host) := by
  by_cases hdir : dir = []
  · rw [ensureDirectory, if_pos (by simpa using hdir)]
    rfl
  · have hthere := h.resolve_left hdir
    have hmake : directoriesToMake host dir = .ok [] := by
      rw [isDirectory] at hthere
      split at hthere
      · rename_i hstatus
        rw [directoriesToMake, hstatus]
      · simp at hthere
    rw [run_ensureDirectory host hdir, hmake]
    change (if host.isDirectory dir then _ else _) = _
    rw [if_pos hthere]

end Host

end FlutterScaffold.Disk
