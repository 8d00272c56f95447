import FlutterScaffold.Proofs.Text.Lines
import FlutterScaffold.Path.Normal

/-!
# Paths that stay below their start

A relative path stays below its start when no walk along its components has more `..` behind it than
ordinary names (`Stays`). The settings of a project are checked on the normal form of a path, but
the path is joined as it stands: what passes the check stays below (`stays_of_isInside`). Joining
such paths, changing the last name and going up to the parent of a file does not lead out either.
-/

namespace FlutterScaffold.Path

open FlutterScaffold.Text (cut cut_append_cons cut_eq_singleton)
open Byte (slash)

/-- Whether a component leads one directory down. -/
def isOrdinary (component : Text) : Bool :=
  !component.isEmpty && component != dot && component != dotDot

/-- A walk along the components never has more `..` behind it than ordinary names. -/
def NeverClimbs (components : List Text) : Prop :=
  ∀ walked, walked <+: components → walked.count dotDot ≤ walked.countP isOrdinary

/-- A relative path that leads nowhere above its start. -/
structure Stays (r : Path) : Prop where
  relative : r.isAbsolute = false
  neverClimbs : NeverClimbs r.elements

/-! ## Walks -/

/-- The beginning of a way that never climbs never climbs. -/
theorem NeverClimbs.of_isPrefix {components walked : List Text} (h : NeverClimbs components)
    (hhead : walked <+: components) : NeverClimbs walked :=
  fun _ hwalked => h _ (hwalked.trans hhead)

/-- Of two ways that never climb, the second goes on from where the first ends. -/
theorem NeverClimbs.append {before behind : List Text} (h : NeverClimbs before)
    (h' : NeverClimbs behind) : NeverClimbs (before ++ behind) := by
  intro walked hwalked
  rcases List.prefix_or_prefix_of_prefix hwalked (List.prefix_append before behind) with hin | hover
  · exact h walked hin
  · obtain ⟨more, rfl⟩ := hover
    have hmore := h' more ((List.prefix_append_right_inj before).mp hwalked)
    have hbefore := h before (List.prefix_refl before)
    rw [List.count_append, List.countP_append]
    exact Nat.add_le_add hbefore hmore

/-- A way that goes down only never climbs. -/
theorem neverClimbs_of_dotDot_not_mem {components : List Text} (h : dotDot ∉ components) :
    NeverClimbs components := by
  intro walked hwalked
  rw [List.count_eq_zero_of_not_mem fun hmem => h (hwalked.mem hmem)]
  exact Nat.zero_le _

/-! ## The names of a path -/

/-- A slash separates the names of two texts. -/
theorem names_append_slash (a b : Text) : names (a ++ slash :: b) = names a ++ names b := by
  rw [names, names, names, cut_append_cons, List.filter_append]

@[simp] theorem names_nil : names [] = [] := rfl

/-- A text without a slash is one name. -/
theorem names_of_not_mem {t : Text} (h : slash ∉ t) (hne : t ≠ []) : names t = [t] := by
  rw [names, cut_eq_singleton h]
  simp [hne]

/-- A path is a single name, or its file name stands behind its last slash. -/
theorem exists_fileName (p : Path) :
    slash ∉ p ∨ ∃ directory name, p = directory ++ slash :: name ∧ slash ∉ name := by
  by_cases h : slash ∈ p
  · obtain ⟨a, b, hp, ha⟩ := List.eq_append_cons_of_mem (List.mem_reverse.mpr h)
    refine Or.inr ⟨b.reverse, a.reverse, ?_, by simpa using ha⟩
    simpa using congrArg List.reverse hp
  · exact Or.inl h

/-- What stands behind a path without a slash goes on with its last name. -/
theorem fileName_append {a name : Text} (h : slash ∉ name) :
    fileName (a ++ name) = fileName a ++ name := by
  have hall : ∀ b ∈ name.reverse, (b != slash) = true := by
    intro b hb
    have hne : b ≠ slash := fun heq => h (heq ▸ List.mem_reverse.mp hb)
    simpa using hne
  rw [fileName, fileName, List.reverse_append, List.takeWhile_append_of_pos hall,
    List.reverse_append, List.reverse_reverse]

/-- A path without a slash is its own last name. -/
theorem fileName_of_not_mem {name : Text} (h : slash ∉ name) : fileName name = name := by
  have happend := fileName_append (a := []) h
  rwa [List.nil_append] at happend

/-- The last name of a path is what stands behind its last slash. -/
theorem fileName_append_slash {directory name : Text} (h : slash ∉ name) :
    fileName (directory ++ slash :: name) = name := by
  have hend : fileName (directory ++ [slash]) = [] := by simp [fileName]
  rw [← List.singleton_append, ← List.append_assoc, fileName_append h, hend, List.nil_append]

/-- A path without a last name is empty or ends with a slash. -/
theorem eq_nil_or_of_fileName_eq_nil {p : Path} (h : fileName p = []) :
    p = [] ∨ ∃ directory, p = directory ++ [slash] := by
  rcases exists_fileName p with hp | ⟨directory, name, rfl, hname⟩
  · exact Or.inl ((fileName_of_not_mem hp).symm.trans h)
  · rw [fileName_append_slash hname] at h
    exact Or.inr ⟨directory, by rw [h]⟩

/-- The components of a relative path that are no names say nothing about climbing. -/
theorem neverClimbs_elements_iff {r : Path} (h : r.isAbsolute = false) :
    NeverClimbs r.elements ↔ NeverClimbs r.names := by
  have heq : r.elements = r.names ++ if endsInSlash r then [[]] else [] := by
    rw [elements, h]
    rfl
  rw [heq]
  refine ⟨fun hall => hall.of_isPrefix (List.prefix_append _ _), fun hnames => hnames.append ?_⟩
  refine neverClimbs_of_dotDot_not_mem ?_
  split <;> decide

/-- The names of a path that stays never climb. -/
theorem Stays.names {r : Path} (h : r.Stays) : NeverClimbs r.names :=
  (neverClimbs_elements_iff h.relative).mp h.neverClimbs

/-- A relative path whose names never climb stays. -/
theorem stays_of_names {r : Path} (h : r.isAbsolute = false) (hnames : NeverClimbs r.names) :
    r.Stays := ⟨h, (neverClimbs_elements_iff h).mpr hnames⟩

/-- A name that holds anything but dots is no `..`. -/
theorem stays_of_mem {name : Text} (hslash : slash ∉ name) {b : Byte} (hb : b ∈ name)
    (hdot : b ≠ byte '.') : Stays name := by
  have hne : name ≠ [] := List.ne_nil_of_mem hb
  refine stays_of_names ?_ ?_
  · cases name with
    | nil => exact absurd rfl hne
    | cons c rest =>
      simpa [isAbsolute] using fun h : c = slash => hslash (h ▸ List.mem_cons_self ..)
  · rw [names_of_not_mem hslash hne]
    refine neverClimbs_of_dotDot_not_mem fun hmem => ?_
    rw [← List.mem_singleton.mp hmem] at hb
    exact hdot (by simpa [dotDot] using hb)

/-! ## Joining -/

section Join

variable {p q s : Path}

/-- What follows a path does not decide where it starts. -/
theorem isAbsolute_append (h : p ≠ [] ∨ q.isAbsolute = false) :
    isAbsolute (p ++ q) = isAbsolute p := by
  cases p with
  | nil => simpa [isAbsolute] using h
  | cons b p => rfl

/-- A relative path is put behind another one, with a slash where the other ends in a name. -/
theorem join_eq (h : q.isAbsolute = false) :
    p.join q = (if fileName p = [] then p else p ++ [slash]) ++ q := by
  rw [join, h, separator]
  by_cases hp : fileName p = [] <;> simp [hp]

/-- A relative path that is followed from another starts where that starts. -/
theorem isAbsolute_join (h : q.isAbsolute = false) : (p.join q).isAbsolute = p.isAbsolute := by
  rw [join_eq h, isAbsolute_append (Or.inr h)]
  split
  · rfl
  · rename_i hp
    refine isAbsolute_append (Or.inl ?_)
    rintro rfl
    exact hp rfl

/-- The names of a relative path come behind those of the path it is followed from. -/
theorem names_join (h : q.isAbsolute = false) : (p.join q).names = p.names ++ q.names := by
  rw [join_eq h]
  by_cases hp : fileName p = []
  · rw [if_pos hp]
    rcases eq_nil_or_of_fileName_eq_nil hp with rfl | ⟨directory, rfl⟩
    · rfl
    · rw [List.append_assoc, List.singleton_append, names_append_slash, names_append_slash]
      simp
  · rw [if_neg hp, List.append_assoc, List.singleton_append, names_append_slash]

/-- What is put behind a joined path is put behind its last part. -/
theorem join_append (h : (q ++ s).isAbsolute = false) (hq : q.isAbsolute = false) :
    p.join q ++ s = p.join (q ++ s) := by
  rw [join_eq h, join_eq hq, List.append_assoc]

/-- The last name is the one of the path that is followed last. -/
theorem fileName_join_eq_nil_iff (h : q.isAbsolute = false) (hq : q ≠ []) :
    fileName (p.join q) = [] ↔ fileName q = [] := by
  rw [join_eq h]
  rcases exists_fileName q with hslash | ⟨directory, name, rfl, hname⟩
  · rw [fileName_append hslash, fileName_of_not_mem hslash]
    simp [hq]
  · rw [← List.append_assoc, fileName_append_slash hname, fileName_append_slash hname]

/-- It does not matter in which order relative paths are put together. -/
theorem join_assoc (hq : q.isAbsolute = false) (hs : s.isAbsolute = false) :
    (p.join q).join s = p.join (q.join s) := by
  have hqs : (q.join s).isAbsolute = false := (isAbsolute_join hs).trans hq
  by_cases hnil : q = []
  · subst hnil
    rw [nil_join, join_eq (p := p.join []) hs, join_eq (p := p) hs, join_eq (p := p) hq]
    by_cases hp : fileName p = []
    · simp [hp]
    · have hend : fileName (p ++ [slash]) = [] := by simp [fileName]
      simp [hp, hend]
  · rw [join_eq hs, join_eq hqs, join_eq (p := q) hs]
    simp only [fileName_join_eq_nil_iff hq hnil]
    rw [join_eq hq]
    split <;> simp

/-- Below a path that stays, a path that stays leads nowhere above their start. -/
theorem Stays.join (h : q.Stays) (h' : s.Stays) : (q.join s).Stays := by
  refine stays_of_names ((isAbsolute_join h'.relative).trans h.relative) ?_
  rw [names_join h'.relative]
  exact h.names.append h'.names

end Join

/-! ## Other ways to stay -/

/-- Once a normal form starts with `..`, it keeps starting with it. -/
theorem dotDot_mem_foldl_pushName {names stack : List Text} (h : dotDot ∈ stack) :
    dotDot ∈ names.foldl (pushName false) stack := by
  induction names generalizing stack with
  | nil => exact h
  | cons name names ih =>
    refine ih ?_
    rw [pushName.eq_def]
    split
    · exact h
    · split
      · split
        · simp at h
        · split
          · simp
          · rename_i hne
            exact (List.mem_cons.mp h).resolve_left (Ne.symm hne)
      · exact List.mem_cons_of_mem _ h

/-- The stack of a normal form without `..` is as high as the ordinary names are ahead. What is
pushed on an empty stack stays at its bottom, so a form that climbs keeps the `..`. -/
theorem count_le_of_foldl_pushName {names stack walked : List Text}
    (hnames : ∀ name ∈ names, name ≠ []) (hstack : dotDot ∉ stack)
    (h : dotDot ∉ names.foldl (pushName false) stack) (hwalked : walked <+: names) :
    walked.count dotDot ≤ walked.countP isOrdinary + stack.length := by
  induction names generalizing stack walked with
  | nil =>
    rw [List.prefix_nil.mp hwalked]
    simp
  | cons name names ih =>
    obtain ⟨hname, hnames⟩ := List.forall_mem_cons.mp hnames
    rcases List.prefix_cons_iff.mp hwalked with rfl | ⟨walked, rfl, hmore⟩
    · simp
    · rw [List.foldl_cons] at h
      by_cases hdot : name = dot
      · rw [hdot] at h ⊢
        have hrest := ih hnames hstack h hmore
        rw [List.count_cons_of_ne (by decide), List.countP_cons_of_neg (by decide)]
        exact hrest
      · by_cases hdots : name = dotDot
        · rw [hdots] at h ⊢
          cases stack with
          | nil => exact absurd (dotDot_mem_foldl_pushName (List.mem_singleton.mpr rfl)) h
          | cons top below =>
            obtain ⟨htop, hbelow⟩ := not_or.mp (mt List.mem_cons.mpr hstack)
            have hpush : pushName false (top :: below) dotDot = below := by
              rw [pushName.eq_def, if_neg (by decide), if_pos rfl]
              exact if_neg (Ne.symm htop)
            rw [hpush] at h
            have hrest := ih hnames hbelow h hmore
            rw [List.count_cons_self, List.countP_cons_of_neg (by decide), List.length_cons]
            omega
        · have hpush : pushName false stack name = name :: stack := by
            simp [pushName, hdot, hdots]
          rw [hpush] at h
          have hrest := ih hnames (by simp [Ne.symm hdots, hstack]) h hmore
          rw [List.count_cons_of_ne hdots,
            List.countP_cons_of_pos (by simp [isOrdinary, hname, hdot, hdots])]
          rw [List.length_cons] at hrest
          omega

/-- A path whose normal form holds no `..` stays below its start as it is. -/
theorem stays_of_isInside {r : Path} (h : r.isInside) : r.Stays := by
  rw [isInside, Bool.and_eq_true, Bool.not_eq_true', Bool.not_eq_true'] at h
  obtain ⟨hrelative, hnormal⟩ := h
  refine stays_of_names hrelative fun walked hwalked => ?_
  have hnot : dotDot ∉ r.names.foldl (pushName false) [] := by
    simpa [normalNames] using hnormal
  exact count_le_of_foldl_pushName (fun name hname => ne_nil_of_mem_names hname) (by simp) hnot
    hwalked

/-- A file name that is made longer is no `..` any more. -/
theorem Stays.append {r suffix : Path} (h : r.Stays) (hslash : slash ∉ suffix) {b : Byte}
    (hb : b ∈ suffix) (hdot : b ≠ byte '.') : (r ++ suffix).Stays := by
  rcases exists_fileName r with hr | ⟨directory, name, rfl, hname⟩
  · exact stays_of_mem (by simp [hr, hslash]) (List.mem_append_right r hb) hdot
  · have hlast : Stays (name ++ suffix) :=
      stays_of_mem (by simp [hname, hslash]) (List.mem_append_right name hb) hdot
    have hnames := h.names
    rw [names_append_slash] at hnames
    rw [List.append_assoc, List.cons_append]
    refine stays_of_names ?_ ?_
    · have hrelative := h.relative
      cases directory with
      | nil => exact absurd hrelative (by simp [isAbsolute])
      | cons c directory => exact hrelative
    · rw [names_append_slash]
      exact (hnames.of_isPrefix (List.prefix_append _ _)).append hlast.names

/-! ## Parents -/

/-- A text with a byte other than slashes has a name. -/
theorem names_ne_nil {t : Text} {b : Byte} (hb : b ∈ t) (hne : b ≠ slash) : names t ≠ [] := by
  induction t with
  | nil => simp at hb
  | cons c rest ih =>
    by_cases hc : c = slash
    · subst hc
      have hrest := (List.mem_cons.mp hb).resolve_left hne
      rw [← List.nil_append (slash :: rest), names_append_slash]
      exact ih hrest
    · obtain ⟨piece, more, hcut⟩ := List.exists_cons_of_ne_nil (Text.cut_ne_nil slash rest)
      simp [names, cut, hc, hcut]

/-- Slashes alone are no name. -/
theorem names_of_slashes {m : Text} (h : ∀ b ∈ m, b = slash) : names m = [] := by
  induction m with
  | nil => rfl
  | cons b m ih =>
    obtain ⟨rfl, hm⟩ := List.forall_mem_cons.mp h
    rw [← List.nil_append (slash :: m), names_append_slash, ih hm]
    rfl

/-- Slashes at the end add no name. -/
theorem names_append_slashes {a m : Text} (h : ∀ b ∈ m, b = slash) :
    names (a ++ m) = names a := by
  cases m with
  | nil => rw [List.append_nil]
  | cons b m =>
    obtain ⟨rfl, hm⟩ := List.forall_mem_cons.mp h
    rw [names_append_slash, names_of_slashes hm, List.append_nil]

/-- Slashes at the end of a path are no names. -/
theorem exists_trimEnd_slash (t : Text) :
    ∃ m, t = Text.trimEnd (· == slash) t ++ m ∧ ∀ b ∈ m, b = slash := by
  refine ⟨(t.reverse.takeWhile (· == slash)).reverse, ?_, fun b hb => ?_⟩
  · rw [Text.trimEnd, ← List.reverse_append, List.takeWhile_append_dropWhile, List.reverse_reverse]
  · simpa using List.mem_takeWhile_imp (List.mem_reverse.mp hb)

/-- Names stay when slashes at the end are dropped. -/
theorem names_trimEnd_slash (t : Text) : names (Text.trimEnd (· == slash) t) = names t := by
  obtain ⟨m, ht, hm⟩ := exists_trimEnd_slash t
  conv_rhs => rw [ht, names_append_slashes hm]

/-- Without a name nothing stays when slashes at the end are dropped. -/
theorem trimEnd_slash_eq_nil {t : Text} (h : names t = []) : Text.trimEnd (· == slash) t = [] := by
  refine Decidable.byContradiction fun hne => ?_
  have hstripped : t.reverse.dropWhile (· == slash) ≠ [] := by simpa [Text.trimEnd] using hne
  have hhead := List.head_dropWhile_not (· == slash) hstripped
  have hmem := (List.dropWhile_suffix (· == slash)).mem (List.head_mem hstripped)
  exact names_ne_nil (List.mem_reverse.mp hmem) (by simpa using hhead) h

/-- There is nothing to take away from a path that ends in no slash. -/
theorem trimEnd_slash_eq_self {p : Path} (h : p.endsInSlash = false)
    (hne : Text.trimEnd (· == slash) p ≠ []) : Text.trimEnd (· == slash) p = p := by
  have hnames : names p ≠ [] := fun hnil => hne (trimEnd_slash_eq_nil hnil)
  have hname : fileName p ≠ [] := by simpa [endsInSlash, hnames] using h
  rw [Text.trimEnd]
  cases hreverse : p.reverse with
  | nil => simp [fileName, hreverse] at hname
  | cons b rest =>
    have hb : b ≠ slash := by
      rintro rfl
      simp [fileName, hreverse] at hname
    rw [List.dropWhile_cons_of_neg (by simpa using hb), ← hreverse, List.reverse_reverse]

/-- A byte other than a slash stays when slashes at the end are dropped. -/
theorem trimEnd_slash_ne_nil {t : Text} {b : Byte} (hb : b ∈ t) (hne : b ≠ slash) :
    Text.trimEnd (· == slash) t ≠ [] := by
  intro hnil
  have hnames := names_ne_nil hb hne
  rw [← names_trimEnd_slash, hnil] at hnames
  exact hnames rfl

/-- What stands in front of its last name is the directory of a path. -/
theorem take_directory {directory name : Text} (hname : slash ∉ name)
    (hend : fileName directory = []) :
    (directory ++ name).take ((directory ++ name).length - (fileName (directory ++ name)).length) =
      directory := by
  rw [fileName_append hname, hend, List.nil_append]
  exact List.take_left' (by simp)

/-- A path is its file name behind a directory. -/
theorem exists_directory (p : Path) :
    ∃ directory, p = directory ++ fileName p ∧ slash ∉ fileName p ∧ fileName directory = [] := by
  rcases exists_fileName p with hp | ⟨directory, name, rfl, hname⟩
  · rw [fileName_of_not_mem hp]
    exact ⟨[], rfl, hp, rfl⟩
  · rw [fileName_append_slash hname]
    exact ⟨directory ++ [slash], by simp, hname, by simp [fileName]⟩

/-- The path above a last name is its directory without the slashes at the end, or the root. -/
theorem parent_of_directory {directory name : Text} (hname : slash ∉ name)
    (hend : fileName directory = []) (hnames : names (directory ++ name) ≠ []) :
    parent (directory ++ name) =
      if Text.trimEnd (· == slash) directory = [] ∧ isAbsolute (directory ++ name) then separator
      else Text.trimEnd (· == slash) directory := by
  rw [parent, if_neg (by simpa using hnames)]
  simp only [take_directory hname hend, Bool.and_eq_true, List.isEmpty_iff]

/-- A parent is made of bytes of the path. -/
theorem parent_sublist (p : Path) : p.parent.Sublist p := by
  by_cases hnames : names p = []
  · simp [parent, hnames]
  · obtain ⟨directory, hp, hname, hend⟩ := exists_directory p
    generalize fileName p = name at hp hname
    subst hp
    rw [parent_of_directory hname hend hnames]
    split
    · rename_i h
      have habs : (directory ++ name).head? = some slash := by simpa [isAbsolute] using h.2
      exact List.singleton_sublist.mpr (List.mem_of_mem_head? habs)
    · obtain ⟨m, hm, -⟩ := exists_trimEnd_slash directory
      conv_rhs => rw [hm, List.append_assoc]
      exact List.sublist_append_left _ _

/-- Nothing ends in a slash once the slashes at its end are gone. -/
theorem endsInSlash_trimEnd_slash (t : Text) :
    endsInSlash (Text.trimEnd (· == slash) t) = false := by
  rw [endsInSlash, Bool.and_eq_false_iff]
  by_cases hstripped : t.reverse.dropWhile (· == slash) = []
  · exact Or.inl (by simp [Text.trimEnd, hstripped])
  · refine Or.inr ?_
    have hhead := List.head_dropWhile_not (· == slash) hstripped
    obtain ⟨b, rest, hcons⟩ := List.exists_cons_of_ne_nil hstripped
    simp only [hcons, List.head_cons] at hhead
    rw [fileName, Text.trimEnd, List.reverse_reverse, hcons,
      List.takeWhile_cons_of_pos (by simpa using hhead)]
    simp

/-- The path above another does not end in a slash. -/
theorem endsInSlash_parent (p : Path) : p.parent.endsInSlash = false := by
  by_cases hnames : names p = []
  · simp [parent, endsInSlash, hnames]
  · obtain ⟨directory, hp, hname, hend⟩ := exists_directory p
    rw [hp] at hnames ⊢
    rw [parent_of_directory hname hend hnames]
    split
    · decide
    · exact endsInSlash_trimEnd_slash directory

/-- The parent of a path with a slash is what stands in front of the slash. -/
theorem parent_append_slash {directory name : Text} (hname : slash ∉ name) {b : Byte}
    (hb : b ∈ directory) (hne : b ≠ slash) :
    parent (directory ++ slash :: name) = Text.trimEnd (· == slash) directory := by
  have hsome : names (directory ++ slash :: name) ≠ [] :=
    names_ne_nil (List.mem_append_left _ hb) hne
  have hend : fileName (directory ++ [slash]) = [] := by simp [fileName]
  have htrim : Text.trimEnd (· == slash) (directory ++ [slash]) =
      Text.trimEnd (· == slash) directory := by simp [Text.trimEnd]
  have htake := take_directory hname hend
  rw [List.append_assoc, List.singleton_append] at htake
  simp only [parent, htake, htrim]
  simp [hsome, trimEnd_slash_ne_nil hb hne]

/-- The path of a directory, up to the slashes at its end. -/
def SameDirectory (p q : Path) : Prop := p.names = q.names ∧ p.isAbsolute = q.isAbsolute

/-- Paths that are the same directory as a third are the same. -/
theorem SameDirectory.trans {p q s : Path} (h : SameDirectory p q) (h' : SameDirectory q s) :
    SameDirectory p s := ⟨h.1.trans h'.1, h.2.trans h'.2⟩

/-- Slashes at the end do not change which directory a path is. -/
theorem sameDirectory_trimEnd_slash {t : Text} (h : Text.trimEnd (· == slash) t ≠ []) :
    SameDirectory (Text.trimEnd (· == slash) t) t := by
  refine ⟨names_trimEnd_slash t, ?_⟩
  obtain ⟨m, hm, -⟩ := exists_trimEnd_slash t
  conv_rhs => rw [hm]
  exact (isAbsolute_append (Or.inl h)).symm

/-- The parent of a name in a directory is the directory. What is left of the directory without its
slashes is a root, nothing, or a path of its own. -/
theorem sameDirectory_parent {directory name : Text} (hname : slash ∉ name)
    (hend : fileName directory = [])
    (habs : isAbsolute (directory ++ name) = isAbsolute directory) :
    SameDirectory (parent (directory ++ name)) directory := by
  by_cases hnil : names (directory ++ name) = []
  · have hempty : names directory = [] := by
      rcases eq_nil_or_of_fileName_eq_nil hend with rfl | ⟨above, rfl⟩
      · rfl
      · rw [List.append_assoc, List.singleton_append, names_append_slash] at hnil
        rw [names_append_slash, (List.append_eq_nil_iff.mp hnil).1]
        rfl
    rw [parent, if_pos (by simpa using hnil)]
    exact ⟨hnil.trans hempty.symm, habs⟩
  · simp only [parent, take_directory hname hend]
    rw [if_neg (by simpa using hnil)]
    by_cases hstripped : Text.trimEnd (· == slash) directory = []
    · have hempty : names directory = [] := by rw [← names_trimEnd_slash, hstripped, names_nil]
      cases hslash : isAbsolute directory with
      | true =>
        rw [hslash] at habs
        simp only [hstripped, habs]
        exact ⟨hempty ▸ rfl, hslash.symm⟩
      | false =>
        rw [hslash] at habs
        simp only [hstripped, habs]
        exact ⟨hempty ▸ rfl, hslash.symm⟩
    · have hkept : (Text.trimEnd (· == slash) directory).isEmpty = false := by simpa using hstripped
      simp only [hkept]
      exact sameDirectory_trimEnd_slash hstripped

/-- The path of a file is its name behind a directory, which is the parent. -/
theorem exists_sameDirectory (p : Path) :
    ∃ directory, p = directory ++ fileName p ∧ slash ∉ fileName p ∧ fileName directory = [] ∧
      isAbsolute p = isAbsolute directory ∧ SameDirectory p.parent directory := by
  obtain ⟨directory, hp, hname, hend⟩ := exists_directory p
  have habs : isAbsolute (directory ++ fileName p) = isAbsolute directory := by
    cases directory with
    | nil =>
      cases hfile : fileName p with
      | nil => rfl
      | cons b rest =>
        have hb : b ≠ slash := by
          rintro rfl
          exact hname (hfile ▸ List.mem_cons_self ..)
        simp [isAbsolute, hb]
    | cons b directory => rfl
  have hsame := sameDirectory_parent hname hend habs
  rw [← hp] at habs hsame
  exact ⟨directory, hp, hname, hend, habs, hsame⟩

/-- The path above another starts where that starts. -/
theorem isAbsolute_parent (p : Path) : p.parent.isAbsolute = p.isAbsolute := by
  obtain ⟨directory, -, -, -, habs, hsame⟩ := exists_sameDirectory p
  exact hsame.2.trans habs.symm

/-- A file is found by its name in the parent of its path. -/
theorem names_parent {p : Path} (h : fileName p ≠ []) :
    names p = names p.parent ++ [fileName p] := by
  obtain ⟨directory, hp, hname, hend, -, hsame⟩ := exists_sameDirectory p
  rw [hsame.1]
  rcases eq_nil_or_of_fileName_eq_nil hend with rfl | ⟨above, rfl⟩
  · rw [List.nil_append] at hp
    rw [← hp] at hname h ⊢
    exact names_of_not_mem hname h
  · conv_lhs => rw [hp]
    rw [List.append_assoc, List.singleton_append, names_append_slash, names_append_slash,
      names_of_not_mem hname h, names_nil, List.append_nil]

/-- Where the file name is made longer, the parent stays the same. -/
theorem parent_append {p suffix : Path} (hslash : slash ∉ suffix) (h : fileName p ≠ []) :
    (p ++ suffix).parent = p.parent := by
  have hnames {q : Path} (hq : fileName q ≠ []) : names q ≠ [] := by
    rw [names_parent hq]
    simp
  have hlonger : fileName (p ++ suffix) ≠ [] := by
    rw [fileName_append hslash]
    simp [h]
  have habs : isAbsolute (p ++ suffix) = isAbsolute p :=
    isAbsolute_append (Or.inl fun hnil => h (by rw [hnil]; rfl))
  obtain ⟨directory, hp, hname, hend⟩ := exists_directory p
  have hboth := hnames h
  have hboth' := hnames hlonger
  generalize fileName p = name at hp hname
  subst hp
  rw [List.append_assoc] at habs hboth' ⊢
  rw [parent_of_directory hname hend hboth,
    parent_of_directory (by simp [hname, hslash]) hend hboth', habs]

/-- The parent of a name in a directory is the directory. -/
theorem sameDirectory_parent_join {root r : Path} (hrelative : r.isAbsolute = false)
    (hr : slash ∉ r) : SameDirectory (root.join r).parent root := by
  have hbase : SameDirectory (if fileName root = [] then root else root ++ [slash]) root := by
    split
    · exact ⟨rfl, rfl⟩
    · rename_i hne
      refine ⟨by rw [names_append_slash]; simp, isAbsolute_append (Or.inl ?_)⟩
      rintro rfl
      exact hne rfl
  have hend : fileName (if fileName root = [] then root else root ++ [slash]) = [] := by
    split
    · assumption
    · simp [fileName]
  have hjoin := join_eq (p := root) hrelative
  rw [hjoin]
  refine (sameDirectory_parent hr hend ?_).trans hbase
  rw [← hjoin, hbase.2]
  exact isAbsolute_join hrelative

/-- The parent of what stays below a directory stays below it, or is the directory itself. The
slashes at the end belong to the directory, so what precedes it keeps its own. -/
theorem parent_join {root r : Path} (h : r.Stays) :
    (∃ d, Stays d ∧ (root.join r).parent = root.join d) ∨
      SameDirectory (root.join r).parent root := by
  rcases exists_fileName r with hr | ⟨directory, name, rfl, hname⟩
  · exact Or.inr (sameDirectory_parent_join h.relative hr)
  · left
    obtain ⟨c, rest, hdirectory⟩ : ∃ c rest, directory = c :: rest := by
      cases directory with
      | nil => exact absurd h.relative (by simp [isAbsolute])
      | cons c rest => exact ⟨c, rest, rfl⟩
    have hc : c ≠ slash := by
      rintro rfl
      exact absurd h.relative (by simp [isAbsolute, hdirectory])
    have hmem : c ∈ directory := hdirectory ▸ List.mem_cons_self ..
    have hne := trimEnd_slash_ne_nil hmem hc
    have hsame := sameDirectory_trimEnd_slash hne
    have hrelative : isAbsolute directory = false := by
      have hwhole := h.relative
      rwa [isAbsolute_append (Or.inl (List.ne_nil_of_mem hmem))] at hwhole
    have hstripped := hsame.2.trans hrelative
    have htrim (base : Text) : Text.trimEnd (· == slash) (base ++ directory) =
        base ++ Text.trimEnd (· == slash) directory := by
      have hdrop : directory.reverse.dropWhile (· == slash) ≠ [] := by
        simpa [Text.trimEnd] using hne
      simp [Text.trimEnd, List.dropWhile_append, hdrop]
    refine ⟨Text.trimEnd (· == slash) directory, stays_of_names hstripped ?_, ?_⟩
    · have hnames := h.names
      rw [names_append_slash] at hnames
      rw [hsame.1]
      exact hnames.of_isPrefix (List.prefix_append _ _)
    · rw [join_eq h.relative, ← List.append_assoc,
        parent_append_slash hname (List.mem_append_right _ hmem) hc, htrim, join_eq hstripped]

end FlutterScaffold.Path
