import FlutterScaffold.Disk.Host

/-!
# File trees in which everything stands in a directory

The trees of a file system are closed: what stands at a place stands in a directory. In a closed
tree nothing stands below a file, a link or an empty place, so putting something there or taking it
away changes the slot of that one place (`Closed.slot?_put`, `Closed.slot?_erase`), and the tree
stays closed. A host is sound when its tree is closed and its current directory is there.
-/

namespace FlutterScaffold.Disk

namespace Tree

variable {tree : Tree} {name : Text} {here above place : Place}

/-- A directory stands at the place and at every place above it. -/
def Reaches (tree : Tree) (place : Place) : Prop :=
  ∀ above, above <:+ place → tree.get? above = some .directory

theorem reaches_nil (tree : Tree) : tree.Reaches [] := by
  rintro above hsuffix
  rw [List.suffix_nil.mp hsuffix]
  rfl

theorem Reaches.tail (h : tree.Reaches here) : tree.Reaches here.tail :=
  fun above hsuffix => h above (hsuffix.trans (List.tail_suffix here))

theorem Reaches.cons (h : tree.Reaches here)
    (hname : tree.get? (name :: here) = some .directory) : tree.Reaches (name :: here) := by
  intro above hsuffix
  rcases List.suffix_cons_iff.mp hsuffix with rfl | hsuffix
  · exact hname
  · exact h above hsuffix

/-- What stands at a place stands in a directory. -/
def Closed (tree : Tree) : Prop :=
  ∀ name above, tree.get? (name :: above) ≠ none → tree.get? above = some .directory

@[simp] theorem get?_nil (tree : Tree) : tree.get? [] = some .directory := rfl

/-- Everything above a directory is a directory. -/
theorem Closed.reaches (h : tree.Closed) (hplace : tree.get? place = some .directory) :
    tree.Reaches place := by
  induction place with
  | nil => exact tree.reaches_nil
  | cons name above ih => exact (ih (h name above (by simp [hplace]))).cons hplace

/-- Nothing stands strictly below a place that is no directory. -/
theorem Closed.eq_none_of_suffix (h : tree.Closed) (hplace : tree.get? place ≠ some .directory)
    {below : Place} (hsuffix : place <:+ below) (hne : below ≠ place) : tree.get? below = none := by
  induction below with
  | nil => exact absurd (List.suffix_nil.mp hsuffix).symm hne
  | cons name above ih =>
    have habove := (List.suffix_cons_iff.mp hsuffix).resolve_left (Ne.symm hne)
    refine Decidable.byContradiction fun hsome => ?_
    have hdirectory := h name above hsome
    by_cases heq : above = place
    · exact hplace (heq ▸ hdirectory)
    · exact absurd (ih habove heq) (by simp [hdirectory])

/-- Something stands above whatever stands at a place. -/
theorem Closed.ne_none_of_suffix (h : tree.Closed) (hplace : tree.get? place ≠ none)
    {above : Place} (hsuffix : above <:+ place) : tree.get? above ≠ none := by
  by_cases habove : tree.get? above = some .directory
  · simp [habove]
  · by_cases heq : place = above
    · exact heq ▸ hplace
    · exact absurd (h.eq_none_of_suffix habove hsuffix heq) hplace

/-- Nothing stands inside of a slot without names. -/
theorem at?_bare (slot : Slot) (key : Text) (path : List Text) :
    Node.at? (key :: path) (some (slot, .nil)) = none := Node.at?_none path

/-- What stands at a place is told from its slot. -/
theorem get?_eq_none_iff : tree.get? place = none ↔ tree.slot? place = none :=
  Option.map_eq_none_iff

/-- A directory stands at a place exactly when its slot is one. -/
theorem get?_eq_directory_iff :
    tree.get? place = some .directory ↔ tree.slot? place = some .directory := by
  rw [get?, Option.map_eq_some_iff]
  constructor
  · rintro ⟨_ | ⟨number, _ | target | device⟩, hslot, hentry⟩
    · exact hslot
    all_goals exact Entry.noConfusion hentry
  · exact fun hslot => ⟨.directory, hslot, rfl⟩

/-- Whether a tree is closed depends on its names only. -/
theorem Closed.of_slot? {tree' : Tree} (h : tree.Closed) (heq : tree'.slot? = tree.slot?) :
    tree'.Closed := by
  intro key other hkey
  rw [get?_eq_directory_iff, heq, ← get?_eq_directory_iff]
  refine h key other fun hnone => hkey ?_
  rwa [get?_eq_none_iff, heq, ← get?_eq_none_iff]

section Change

variable {value : Option Node}

/-- A change at a place that is no directory to one with nothing inside shows there and nowhere
else. -/
private theorem Closed.slot?_change (h : tree.Closed) (habove : tree.get? above = some .directory)
    (hplace : tree.get? (name :: above) ≠ some .directory)
    (hvalue : ∀ key path, Node.at? (key :: path) value = none) (other : Place) :
    (tree.change (name :: above) value).slot? other =
      if other = name :: above then value.map (·.1) else tree.slot? other := by
  have hsome : (tree.slot? above).isSome := by simp [get?_eq_directory_iff.mp habove]
  by_cases hover : other = name :: above ∨ ¬ name :: above <:+ other
  · exact tree.slot?_change value other hsome (List.cons_ne_nil name above) hover
  · obtain ⟨hne, hsuffix⟩ := not_or.mp hover
    obtain ⟨more, rfl⟩ := Decidable.not_not.mp hsuffix
    have hmore : more.reverse ≠ [] := by
      rintro hnil
      exact hne (by rw [List.reverse_eq_nil_iff.mp hnil, List.nil_append])
    obtain ⟨key, path, heq⟩ := List.exists_cons_of_ne_nil hmore
    have hnone := h.eq_none_of_suffix hplace (List.suffix_append more _) hne
    rw [if_neg hne, slot?, tree.node?_change_append value hsome more, heq, hvalue,
      get?_eq_none_iff.mp hnone, Option.map_none]

/-- A changed tree is closed if the change is made in a directory, at no directory, and puts nothing
below its place. -/
private theorem Closed.change (h : tree.Closed) (habove : tree.get? above = some .directory)
    (hplace : tree.get? (name :: above) ≠ some .directory)
    (hvalue : ∀ key path, Node.at? (key :: path) value = none) :
    (tree.change (name :: above) value).Closed := by
  intro key other hkey
  have hkept (hother : tree.get? other = some .directory) :
      (tree.change (name :: above) value).get? other = some .directory := by
    rw [get?_eq_directory_iff, h.slot?_change habove hplace hvalue, if_neg,
      get?_eq_directory_iff.mp hother]
    rintro rfl
    exact hplace hother
  rw [Ne, get?_eq_none_iff, h.slot?_change habove hplace hvalue] at hkey
  split at hkey
  · rename_i heq
    exact hkept ((List.cons_eq_cons.mp heq).2 ▸ habove)
  · exact hkept (h key other (mt get?_eq_none_iff.mp hkey))

end Change

section Changes

variable (h : tree.Closed) (habove : tree.get? above = some .directory)
  (hplace : tree.get? (name :: above) ≠ some .directory)
include h habove hplace

/-- A place that is to stand for an object does so, and every other one stands for what it did. -/
theorem Closed.slot?_share (slot : Slot) (other : Place) :
    (tree.share (name :: above) slot).slot? other =
      if other = name :: above then some slot else tree.slot? other :=
  h.slot?_change habove hplace (at?_bare slot) other

/-- What stands in the slot shows at the place, and nothing else changes. -/
theorem Closed.get?_share (slot : Slot) (other : Place) :
    (tree.share (name :: above) slot).get? other =
      if other = name :: above then some (tree.entryOf slot) else tree.get? other := by
  rw [get?, h.slot?_share habove hplace, Tree.share, entryOf_change]
  split <;> rfl

/-- A further name for an object is made in a directory. -/
theorem Closed.share (slot : Slot) : (tree.share (name :: above) slot).Closed :=
  h.change habove hplace (at?_bare slot)

/-- What is taken away is missing there and nowhere else. -/
theorem Closed.slot?_erase (other : Place) :
    (tree.erase (name :: above)).slot? other =
      if other = name :: above then none else tree.slot? other :=
  h.slot?_change habove hplace (fun key path => Node.at?_none (key :: path)) other

/-- What is taken away is missing at its place, and nothing else is. -/
theorem Closed.get?_erase (other : Place) :
    (tree.erase (name :: above)).get? other =
      if other = name :: above then none else tree.get? other := by
  rw [get?, h.slot?_erase habove hplace, Tree.erase, entryOf_change]
  split <;> rfl

/-- A closed tree is closed without an object. -/
theorem Closed.erase : (tree.erase (name :: above)).Closed :=
  h.change habove hplace fun key path => Node.at?_none (key :: path)

/-- A new entry gets a slot of its own, and every other place keeps its slot. -/
theorem Closed.slot?_put (entry : Entry) (other : Place) :
    (tree.put (name :: above) entry).slot? other =
      if other = name :: above then some (entry.slot tree.fresh) else tree.slot? other := by
  have hslots := tree.slot?_hold tree.fresh entry
  have hclosed := h.of_slot? hslots
  rw [get?_eq_directory_iff, ← hslots, ← get?_eq_directory_iff] at habove
  rw [Ne, get?_eq_directory_iff, ← hslots, ← get?_eq_directory_iff] at hplace
  rw [← hslots]
  exact hclosed.slot?_change habove hplace (at?_bare (entry.slot tree.fresh)) other

/-- A new entry shows at its place, and nothing else changes. -/
theorem Closed.get?_put (entry : Entry) (other : Place) :
    (tree.put (name :: above) entry).get? other =
      if other = name :: above then some entry else tree.get? other := by
  rw [get?, h.slot?_put habove hplace]
  split
  · rw [Option.map_some, entryOf_put_self]
  · rw [get?]
    cases hslot : tree.slot? other with
    | none => rfl
    | some slot => rw [Option.map_some, Option.map_some, entryOf_put tree _ entry hslot]

/-- A closed tree is closed with another object. -/
theorem Closed.put (entry : Entry) : (tree.put (name :: above) entry).Closed := by
  have hslots := tree.slot?_hold tree.fresh entry
  have hclosed := h.of_slot? hslots
  rw [get?_eq_directory_iff, ← hslots, ← get?_eq_directory_iff] at habove
  rw [Ne, get?_eq_directory_iff, ← hslots, ← get?_eq_directory_iff] at hplace
  exact hclosed.change habove hplace (at?_bare (entry.slot tree.fresh))

end Changes

end Tree

/-- The current directory is there. -/
def Host.HasHere (host : Host) : Prop := host.tree.Reaches host.here

/-- A host as a file system keeps it. -/
structure Host.Sound (host : Host) : Prop where
  closed : host.tree.Closed
  /-- The current directory is there. -/
  here : host.tree.get? host.here = some .directory

/-- Nothing stands in an empty tree but its root. -/
theorem Tree.closed_empty : ({} : Tree).Closed := by
  intro name above h
  refine absurd ?_ h
  obtain ⟨key, path, hpath⟩ :=
    List.exists_cons_of_ne_nil (List.reverse_ne_nil_iff.mpr (List.cons_ne_nil name above))
  rw [get?_eq_none_iff, slot?, node?, hpath]
  exact congrArg _ (at?_bare .directory key path)

/-- A host that holds nothing but the devices. -/
theorem Host.sound_devices : ({ tree := Tree.mk Disk.devices } : Host).Sound := by
  have htree : Tree.mk Disk.devices = ((({} : Tree).put [lit "dev"] .directory).put
      [lit "full", lit "dev"] (.device .full)).put [lit "null", lit "dev"] (.device .null) := by
    decide
  refine ⟨?_, rfl⟩
  rw [htree]
  exact ((Tree.closed_empty.put rfl (by decide) _).put (by decide) (by decide) _).put
    (by decide) (by decide) _

/-- The current directory of a sound host stands in directories only. -/
theorem Host.Sound.hasHere {host : Host} (h : host.Sound) : host.HasHere := h.closed.reaches h.here

end FlutterScaffold.Disk
