import FlutterScaffold.Proofs.Disk.Walking
import FlutterScaffold.Proofs.Path.Descent

/-!
# The places that paths name

A path names a place, and leads to another one where links are followed. On a sound host both are
places in directories, and what the host tells about a path is what stands there. Where the way is
kept, a path names the same place after a change.
-/

namespace FlutterScaffold.Disk

/-! ## Paths as the system reads them -/

/-- A path without a zero byte is read as it is. -/
theorem seen_eq_self {p : Path} (h : (0 : Byte) ∉ p) : seen p = p :=
  List.takeWhile_eq_self_iff.mpr fun b hb => by simpa using fun heq : b = 0 => h (heq ▸ hb)

/-- No zero byte is seen of a path. -/
theorem not_mem_seen (p : Path) : (0 : Byte) ∉ seen p := fun h => by
  simpa using List.mem_takeWhile_imp h

/-- What is seen of a path is seen as it is. -/
@[simp] theorem seen_seen (p : Path) : seen (seen p) = seen p := seen_eq_self (not_mem_seen p)

/-- Nothing behind a zero byte is read. -/
theorem seen_append_cons {p : Path} (h : (0 : Byte) ∉ p) (q : Path) : seen (p ++ 0 :: q) = p := by
  rw [seen, List.takeWhile_append_of_pos fun b hb => by simpa using fun heq : b = 0 => h (heq ▸ hb)]
  simp

/-- What is read of a path is all of it or what stands in front of a zero byte. -/
theorem exists_seen (p : Path) : ∃ rest, p = seen p ++ rest ∧ (rest = [] ∨ ∃ q, rest = 0 :: q) := by
  refine ⟨p.dropWhile (· != 0), List.takeWhile_append_dropWhile.symm, ?_⟩
  cases hrest : p.dropWhile (· != 0) with
  | nil => exact Or.inl rfl
  | cons b q =>
    have hhead := List.head_dropWhile_not (· != 0) (by simp [hrest] : p.dropWhile (· != 0) ≠ [])
    refine Or.inr ⟨q, ?_⟩
    simp only [hrest, List.head_cons] at hhead
    rw [show b = 0 by simpa using hhead]

/-- A longer path is read as the path itself, unless all of that is read. -/
theorem seen_append_of_mem {p : Path} (h : (0 : Byte) ∈ p) (q : Path) :
    seen (p ++ q) = seen p := by
  obtain ⟨rest, hp, rfl | ⟨more, rfl⟩⟩ := exists_seen p
  · rw [List.append_nil] at hp
    exact absurd (hp ▸ h) (not_mem_seen p)
  · conv_lhs => rw [hp, List.append_assoc, List.cons_append]
    exact seen_append_cons (not_mem_seen p) _

/-- The parent of a path is read as the path itself when the slash stands behind a zero byte. -/
theorem seen_parent {p more : Path} (hp : (0 : Byte) ∉ p) (hslash : Byte.slash ∈ more) :
    seen (Path.parent (p ++ 0 :: more)) = p := by
  obtain ⟨before, name, hmore, hname⟩ : ∃ before name, more = before ++ Byte.slash :: name ∧
      Byte.slash ∉ name := (Path.exists_fileName more).resolve_left (not_not_intro hslash)
  have hzero : (0 : Byte) ∈ p ++ 0 :: before := by simp
  have hparent : Path.parent (p ++ 0 :: more) = Text.trimEnd (· == Byte.slash)
    (p ++ 0 :: before) := by
    rw [hmore, ← List.cons_append, ← List.append_assoc]
    exact Path.parent_append_slash hname hzero (by decide)
  obtain ⟨slashes, hwhole, hslashes⟩ := Path.exists_trimEnd_slash (p ++ 0 :: before)
  rw [hparent]
  generalize Text.trimEnd (· == Byte.slash) (p ++ 0 :: before) = trimmed at hwhole ⊢
  have hmem : (0 : Byte) ∈ trimmed := by
    rw [hwhole, List.mem_append] at hzero
    exact hzero.resolve_right fun hend => absurd (hslashes 0 hend) (by decide)
  rw [← seen_append_of_mem hmem slashes, ← hwhole, seen_append_cons hp]

/-- A path that is neither empty nor too long leads where the walk along its steps ends. -/
theorem locate_iff {tree : Tree} {here : Place} {follow : Bool} {p : Path} {spot : Spot} :
    locate tree here follow p = .ok spot ↔
      seen p ≠ [] ∧ (seen p).length < maxPath ∧
        Walks tree follow maxLinks (startOf here (seen p)) (steps (seen p)) spot := by
  rw [locate]
  by_cases hempty : seen p = []
  · simp [hempty]
  · rw [if_neg (by simpa using hempty)]
    by_cases hlong : maxPath ≤ (seen p).length
    · simp [hlong, Nat.not_lt.mpr hlong]
    · rw [if_neg hlong, ← walk_iff]
      simp [hempty, Nat.lt_of_not_le hlong, startOf]

namespace Host

variable {host host' : Host} {p q : Path} {place : Place} {follow : Bool}

/-- The place that a path stands for, through the link that may stand at its end or not. -/
def Finds (host : Host) (follow : Bool) (p : Path) (place : Place) : Prop :=
  locate host.tree host.here follow p = .ok ⟨place, host.tree.get? place⟩

instance : Decidable (host.Finds follow p place) :=
  inferInstanceAs (Decidable (locate host.tree host.here follow p = _))

/-- The place of the entry that a path names, which may be a link. -/
abbrev Names (host : Host) : Path → Place → Prop := host.Finds false

/-- The place that a path leads to through links. -/
abbrev LeadsTo (host : Host) : Path → Place → Prop := host.Finds true

/-- The place that a path starts from is a directory. -/
theorem Sound.reaches_startOf (h : host.Sound) (p : Path) :
    host.tree.Reaches (startOf host.here p) := reaches_start h.hasHere p

/-- A path finds the place where the walk along its steps ends. -/
theorem finds_iff : host.Finds follow p place ↔
    seen p ≠ [] ∧ (seen p).length < maxPath ∧
      Walks host.tree follow maxLinks (startOf host.here (seen p)) (steps (seen p))
        ⟨place, host.tree.get? place⟩ := locate_iff

/-- Paths that are read alike stand for the same place. -/
theorem finds_congr (h : seen p = seen q) :
    host.Finds follow p place ↔ host.Finds follow q place := by
  rw [Finds, Finds, locate, locate, h]

/-- A path stands for what is read of it. -/
theorem finds_seen : host.Finds follow (seen p) place ↔ host.Finds follow p place :=
  finds_congr (seen_seen p)

/-- A request finds what stands at the place of its path. -/
theorem Sound.finds (h : host.Sound) {spot : Spot}
    (hlocate : locate host.tree host.here follow p = .ok spot) :
    host.Finds follow p spot.place ∧ spot.entry = host.tree.get? spot.place := by
  obtain ⟨hentry, -⟩ := (locate_iff.mp hlocate).2.2.spec (h.reaches_startOf _)
  refine ⟨?_, hentry⟩
  rw [Finds, hlocate, ← hentry]

/-- The place that a path finds stands in a directory. -/
theorem Sound.above (h : host.Sound) (hfinds : host.Finds follow p place) :
    host.tree.get? place.tail = some .directory :=
  ((finds_iff.mp hfinds).2.2.spec (h.reaches_startOf _)).2 _ (List.suffix_refl _)

/-- A path finds one place. -/
theorem Finds.det {other : Place} (h : host.Finds follow p place) (h' : host.Finds follow p other) :
    other = place := (Spot.mk.inj (Except.ok.inj (h'.symm.trans h))).1

/-- No link stands where a path leads. -/
theorem LeadsTo.not_link (h : host.LeadsTo p place) (target : Path) :
    host.tree.get? place ≠ some (.link target) := (finds_iff.mp h).2.2.not_link target

/-- A path leads to the place it names unless a link stands there. -/
theorem Names.leadsTo (h : host.Names p place)
    (hlink : ∀ target, host.tree.get? place ≠ some (.link target)) : host.LeadsTo p place := by
  obtain ⟨hne, hlength, hwalk⟩ := finds_iff.mp h
  exact finds_iff.mpr ⟨hne, hlength, hwalk.onward hlink⟩

/-- A path that leads to a place names it, or a link. -/
theorem LeadsTo.exists_names (hs : host.Sound) (h : host.LeadsTo p place) :
    ∃ stop, host.Names p stop ∧
      (stop = place ∨ ∃ target, host.tree.get? stop = some (.link target)) := by
  obtain ⟨hne, hlength, hwalk⟩ := finds_iff.mp h
  obtain ⟨stop, hstop, hmore⟩ := hwalk.stop
  obtain ⟨hentry, -⟩ := hstop.spec (hs.reaches_startOf _)
  refine ⟨stop.place, finds_iff.mpr ⟨hne, hlength, hentry ▸ hstop⟩, ?_⟩
  rcases hmore with rfl | ⟨target, -, hlink, -⟩
  · exact Or.inl rfl
  · exact Or.inr ⟨target, hentry ▸ hlink⟩

/-- A path stands for the same place where its way is kept. -/
theorem Finds.of_keeps (h : host.Finds follow p place) (hs : host.Sound)
    (hkeeps : host.tree.Keeps host'.tree) (hhere : host'.here = host.here)
    (hend : ∀ target, host'.tree.get? place = some (.link target) → follow = false) :
    host'.Finds follow p place := by
  obtain ⟨hne, hlength, hwalk⟩ := finds_iff.mp h
  refine finds_iff.mpr ⟨hne, hlength, ?_⟩
  rw [hhere]
  exact hwalk.of_keeps hkeeps (hs.reaches_startOf _) hend

/-- A path names the same place on a host that keeps its ways. -/
theorem Names.of_keeps (h : host.Names p place) (hs : host.Sound)
    (hkeeps : host.tree.Keeps host'.tree) (hhere : host'.here = host.here) : host'.Names p place :=
  Finds.of_keeps h hs hkeeps hhere fun _ _ => rfl

/-- A path that leads to no directory names its place whatever becomes of what stands there. -/
theorem LeadsTo.names_of_spared {w : Place} (h : host.LeadsTo p w) (hs : host.Sound)
    (hw : host.tree.get? w ≠ some .directory) (hnames : host.Names p place)
    (hdirectories : ∀ other, host.tree.get? other = some .directory →
      host'.tree.get? other = some .directory)
    (hlinks : ∀ other target, other ≠ place → host.tree.get? other = some (.link target) →
      host'.tree.get? other = some (.link target)) (hhere : host'.here = host.here) :
    host'.Names p place := by
  obtain ⟨hne, hlength, hwalk⟩ := finds_iff.mp hnames
  refine finds_iff.mpr ⟨hne, hlength, ?_⟩
  rw [hhere]
  refine hwalk.of_spared hdirectories hlinks (fun target fewer between hlink hbetween => ?_)
    (hs.reaches_startOf _)
  obtain ⟨stop, hstop, hmore⟩ := (finds_iff.mp h).2.2.stop
  obtain rfl := hwalk.det hstop
  rcases hmore with heq | ⟨next, _, hentry, -, hnext⟩
  · exact h.not_link target ((Spot.mk.inj heq).1 ▸ hlink)
  · obtain rfl : target = next := by simpa [hlink] using hentry
    exact hw (Spot.mk.inj (hnext.det hbetween)).2.symm

/-! ## What a host tells -/

/-- What is told of a path is the entry at the place that it finds. -/
private theorem Sound.found_iff (hs : host.Sound) {entry : Entry} :
    (locate host.tree host.here follow p >>= fun spot =>
      match spot.entry with
      | some found => .ok found
      | none => .error .noEntry) = .ok entry ↔
      ∃ place, host.Finds follow p place ∧ host.tree.get? place = some entry := by
  constructor
  · intro h
    cases hlocate : locate host.tree host.here follow p with
    | error refusal =>
      rw [hlocate] at h
      exact absurd h (by simp [bind, Except.bind])
    | ok spot =>
      obtain ⟨hfinds, hentry⟩ := hs.finds hlocate
      refine ⟨spot.place, hfinds, ?_⟩
      rw [← hentry]
      rw [hlocate] at h
      simp only [bind, Except.bind] at h
      split at h
      · rename_i hsome
        rw [hsome, Except.ok.inj h]
      · simp at h
  · rintro ⟨place, hfinds, hget⟩
    rw [hfinds, hget]
    rfl

/-- The status of a path is the entry that it leads to. -/
theorem Sound.status_iff (hs : host.Sound) {entry : Entry} :
    host.status p = .ok entry ↔
      ∃ place, host.LeadsTo p place ∧ host.tree.get? place = some entry := hs.found_iff

/-- The link status of a path is the entry that it names. -/
theorem Sound.linkStatus_iff (hs : host.Sound) {entry : Entry} :
    host.linkStatus p = .ok entry ↔
      ∃ place, host.Names p place ∧ host.tree.get? place = some entry := hs.found_iff

/-- A link stands at the end of a path. -/
def NamesLink (host : Host) (p : Path) : Prop := ∃ target, host.linkStatus p = .ok (.link target)

/-- Paths that are read alike are told the same about. -/
theorem status_congr (h : seen p = seen q) : host.status p = host.status q := by
  rw [status, status, locate, locate, h]

/-- A path that names nothing names no link. -/
theorem not_namesLink_of_error {refusal : Refusal} (h : host.linkStatus p = .error refusal) :
    ¬ host.NamesLink p := by
  rintro ⟨target, hlink⟩
  rw [h] at hlink
  cases hlink

/-- A path names a link exactly when one stands at the place that it names. -/
theorem Sound.namesLink_iff (hs : host.Sound) (hnames : host.Names p place) :
    host.NamesLink p ↔ ∃ target, host.tree.get? place = some (.link target) := by
  refine exists_congr fun target => hs.linkStatus_iff.trans ⟨?_, fun hget => ⟨place, hnames, hget⟩⟩
  rintro ⟨other, hother, hget⟩
  rwa [hnames.det hother] at hget

/-- A path exists when it leads to an entry. -/
theorem Sound.exists?_iff (hs : host.Sound) :
    host.exists? p = true ↔ ∃ place, host.LeadsTo p place ∧ host.tree.get? place ≠ none := by
  constructor
  · intro h
    rw [exists?] at h
    cases hstatus : host.status p with
    | error refusal => simp [hstatus, Except.isOk, Except.toBool] at h
    | ok entry =>
      obtain ⟨place, hleads, hget⟩ := hs.status_iff.mp hstatus
      exact ⟨place, hleads, by simp [hget]⟩
  · rintro ⟨place, hleads, hsome⟩
    obtain ⟨entry, hget⟩ := Option.ne_none_iff_exists'.mp hsome
    rw [exists?, hs.status_iff.mpr ⟨place, hleads, hget⟩]
    rfl

/-- A path is a directory when it leads to one. -/
theorem Sound.isDirectory_iff (hs : host.Sound) :
    host.isDirectory p = true ↔
      ∃ place, host.LeadsTo p place ∧ host.tree.get? place = some .directory := by
  rw [← hs.status_iff, isDirectory]
  split <;> simp_all

/-- Where nothing stands there is no directory. -/
theorem Sound.isDirectory_eq_false_of_error (hs : host.Sound) {refusal : Refusal}
    (h : host.linkStatus p = .error refusal) : host.isDirectory p = false := by
  refine Bool.eq_false_iff.mpr fun hdirectory => ?_
  obtain ⟨place, hleads, hget⟩ := hs.isDirectory_iff.mp hdirectory
  obtain ⟨stop, hstop, hwhat⟩ := hleads.exists_names hs
  obtain ⟨entry, hentry⟩ : ∃ entry, host.tree.get? stop = some entry := by
    rcases hwhat with rfl | ⟨target, hlink⟩
    · exact ⟨_, hget⟩
    · exact ⟨_, hlink⟩
  have hstatus := hs.linkStatus_iff.mpr ⟨stop, hstop, hentry⟩
  exact absurd (hstatus.symm.trans h) (by simp)

/-- A path is a file when it leads to one. -/
theorem Sound.isFile_iff (hs : host.Sound) :
    host.isFile p = true ↔
      ∃ place content, host.LeadsTo p place ∧ host.tree.get? place = some (.file content) := by
  rw [exists_comm]
  simp only [← hs.status_iff]
  rw [isFile]
  split <;> simp_all

/-- A directory stays one where ways are kept. -/
theorem Sound.isDirectory_of_keeps (hs : host.Sound) (hs' : host'.Sound)
    (hkeeps : host.tree.Keeps host'.tree) (hhere : host'.here = host.here)
    (h : host.isDirectory p = true) : host'.isDirectory p = true := by
  obtain ⟨place, hleads, hget⟩ := hs.isDirectory_iff.mp h
  have hkept := hkeeps.directories place hget
  refine hs'.isDirectory_iff.mpr ⟨place, ?_, hkept⟩
  exact hleads.of_keeps hs hkeeps hhere fun target hlink => by simp [hkept] at hlink

/-- A file is read at the place that its path leads to. -/
theorem LeadsTo.readFile_eq {content : Text} (h : host.LeadsTo p place)
    (hget : host.tree.get? place = some (.file content)) : host.readFile p = .ok content := by
  rw [readFile, status, h, hget]
  rfl

/-! ## The directory of a file -/

/-- The last step of a path with a last name is that name. -/
theorem steps_of_fileName (h : Path.fileName p ≠ []) :
    steps p = p.parent.names ++ [Path.fileName p] := by
  have hend : p.endsInSlash = false := by simp [Path.endsInSlash, h]
  rw [steps, hend, Path.names_parent h]
  simp

/-- The steps of the path above a name are the names of that path. -/
theorem steps_parent (p : Path) : steps p.parent = p.parent.names := by
  simp [steps, Path.endsInSlash_parent]

/-- The directory in which the last name of a path is looked up. -/
def LiesIn (host : Host) (p : Path) (above : Place) : Prop :=
  Walks host.tree true maxLinks (startOf host.here (seen p)) (Path.parent (seen p)).names
    ⟨above, some .directory⟩

/-- What is no directory is found by its name. -/
theorem Finds.exists_liesIn (h : host.Finds follow p place)
    (hplace : host.tree.get? place ≠ some .directory) :
    Path.fileName (seen p) ≠ [] ∧ Fits (Path.fileName (seen p)) ∧
      ∃ above, host.LiesIn p above := by
  obtain ⟨-, -, hwalk⟩ := finds_iff.mp h
  have hlast {before : List Text} {name : Text} {spot : Spot} (heq : spot.entry ≠ some .directory)
      (hnames : Walks host.tree follow maxLinks (startOf host.here (seen p)) (before ++ [name])
        spot) :
      Fits name ∧ ∃ above, Walks host.tree true maxLinks (startOf host.here (seen p)) before
        ⟨above, some .directory⟩ := by
    obtain ⟨above, hbefore, hbehind⟩ := hnames.exists_of_append (List.cons_ne_nil _ _)
    refine ⟨?_, above, hbefore⟩
    cases hbehind with
    | dot hrest => cases hrest; exact absurd rfl heq
    | up hrest => cases hrest; exact absurd rfl heq
    | down hfits => exact hfits
    | link hfits => exact hfits
    | last hfits => exact hfits
  have hname : Path.fileName (seen p) ≠ [] := by
    intro hnil
    by_cases hnames : Path.names (seen p) = []
    · have hsteps : steps (seen p) = [] := by simp [steps, Path.endsInSlash, hnames]
      rw [hsteps] at hwalk
      exact hplace hwalk.entry_of_nil
    · have hsteps : steps (seen p) = Path.names (seen p) ++ [Path.dot] := by
        simp [steps, Path.endsInSlash, hnames, hnil]
      rw [hsteps] at hwalk
      exact (hlast hplace hwalk).1.1 rfl
  rw [steps_of_fileName hname] at hwalk
  exact ⟨hname, hlast hplace hwalk⟩

/-- A path whose directory is there names a place in it. -/
theorem LiesIn.names {above : Place} (h : host.LiesIn p above)
    (hname : Path.fileName (seen p) ≠ []) (hfits : Fits (Path.fileName (seen p)))
    (hlength : (seen p).length < maxPath) :
    host.Names p (Path.fileName (seen p) :: above) := by
  refine finds_iff.mpr ⟨fun hnil => hname (by rw [hnil]; rfl), hlength, ?_⟩
  rw [steps_of_fileName hname]
  exact Walks.append_last h hfits fun _ _ => rfl

/-- The directory of a file is one, or the current directory, which needs no path. -/
theorem LiesIn.parent {above : Place} (h : host.LiesIn p above) (hs : host.Sound)
    (hlength : (seen p).length < maxPath) :
    Path.parent (seen p) = [] ∨ host.isDirectory (Path.parent (seen p)) := by
  have hseen : seen (Path.parent (seen p)) = Path.parent (seen p) :=
    seen_eq_self fun hmem => not_mem_seen p ((Path.parent_sublist _).subset hmem)
  by_cases hparent : Path.parent (seen p) = []
  · exact Or.inl hparent
  · refine Or.inr (hs.isDirectory_iff.mpr ⟨above, ?_⟩)
    have hentry := (Walks.spec h (hs.reaches_startOf _)).1
    refine ⟨finds_iff.mpr ?_, hentry.symm⟩
    rw [hseen]
    refine ⟨hparent, Nat.lt_of_le_of_lt (Path.parent_sublist _).length_le hlength, ?_⟩
    rw [steps_parent, startOf, Path.isAbsolute_parent, ← hentry]
    exact h

/-- A file name may be made longer where it stands. -/
theorem LiesIn.append {above : Place} {suffix : Text} (h : host.LiesIn p above)
    (hp : (0 : Byte) ∉ p) (hsuffix : (0 : Byte) ∉ suffix) (hname : Path.fileName p ≠ [])
    (hslash : Byte.slash ∉ suffix) : host.LiesIn (p ++ suffix) above := by
  have hne : p ≠ [] := fun hnil => hname (by rw [hnil]; rfl)
  rw [LiesIn, seen_eq_self hp] at h
  rw [LiesIn, seen_eq_self (by simp [hp, hsuffix]), Path.parent_append hslash hname, startOf,
    Path.isAbsolute_append (Or.inl hne)]
  exact h

end Host

end FlutterScaffold.Disk
