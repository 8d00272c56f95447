import FlutterScaffold.Proofs.Disk.Walking

/-!
# Objects with several names

An object shows the same at all places whose names stand for it (`Tree.Shows`). A new entry is an
object of its own: where a tree only gets new ones (`Tree.Adds`), places stand for one object then
exactly when they did before. So neither new entries nor new bytes in a file change what a walk
passes on its way (`Tree.Adds.keeps`).
-/

namespace FlutterScaffold.Disk.Tree

variable {tree tree' tree'' : Tree} {name : Text} {above place other : Place}

/-- What is done to the object at one place shows at another one. -/
def Shows (tree : Tree) (through place : Place) : Prop :=
  place = through ∨ tree.SameObject place through

theorem SameObject.symm (h : tree.SameObject place other) : tree.SameObject other place :=
  ⟨h.1.symm, h.1 ▸ h.2⟩

/-- What is no directory is an object. -/
theorem sameObject_self {entry : Entry} (h : tree.get? place = some entry)
    (hne : entry ≠ .directory) : tree.SameObject place place := by
  refine ⟨rfl, fun hnone => ?_, fun hdirectory => hne ?_⟩
  · simp [get?_eq_none_iff.mpr hnone] at h
  · exact Option.some.inj (h.symm.trans (get?_eq_directory_iff.mpr hdirectory))

/-- The same stands at a place and where it shows. -/
theorem Shows.get?_eq {through : Place} (h : tree.Shows through place) :
    tree.get? place = tree.get? through := by
  rcases h with rfl | hsame
  · rfl
  · exact hsame.get?_eq

/-- All places keep their slots, and the new ones have slots of their own. -/
structure Adds (tree tree' : Tree) : Prop where
  slots : ∀ place, tree.slot? place ≠ none → tree'.slot? place = tree.slot? place
  single : ∀ place other, tree.slot? place = none → tree'.SameObject other place → other = place

/-- Nothing is added where all slots stay. -/
theorem Adds.of_slot? (h : tree'.slot? = tree.slot?) : tree.Adds tree' where
  slots place _ := congrFun h place
  single place other hnone hsame := by
    refine absurd (hsame.1.trans ?_) hsame.2.1
    rw [h, hnone]

theorem Adds.refl (tree : Tree) : tree.Adds tree := .of_slot? rfl

/-- Places stand for one object where they did before. -/
theorem Adds.sameObject_iff (h : tree.Adds tree') (hplace : tree.slot? place ≠ none) :
    tree'.SameObject other place ↔ tree.SameObject other place := by
  by_cases hother : tree.slot? other = none
  · refine ⟨fun hsame => ?_, fun hsame => absurd hother hsame.2.1⟩
    obtain rfl := h.single other place hother hsame.symm
    exact absurd hother hplace
  · rw [SameObject, SameObject, h.slots other hother, h.slots place hplace]

/-- What shows the same then showed the same before. -/
theorem Adds.shows {through : Place} (h : tree.Adds tree') (hshows : tree'.Shows through place) :
    tree.Shows through place := by
  rcases hshows with rfl | hsame
  · exact Or.inl rfl
  · by_cases hnone : tree.slot? through = none
    · exact Or.inl (h.single through place hnone hsame)
    · exact Or.inr ((h.sameObject_iff hnone).mp hsame)

/-- What is done to an object shows at no place of another one, then as before. -/
theorem Adds.slot?_ne_of_not_shows (h : tree.Adds tree') {number : Nat} {kind : Kind}
    (hplace : tree.slot? place = some (.object number kind)) (hother : ¬ tree.Shows place other) :
    tree'.slot? other ≠ some (.object number kind) := by
  intro heq
  have hkept : tree'.slot? place = some (.object number kind) := by
    rw [h.slots place (by simp [hplace]), hplace]
  exact hother (h.shows (Or.inr ((Tree.sameObject_iff hkept).mpr heq)))

theorem Adds.trans (h : tree.Adds tree') (h' : tree'.Adds tree'') : tree.Adds tree'' where
  slots place hsome := by
    have hfirst := h.slots place hsome
    rw [h'.slots place (hfirst ▸ hsome), hfirst]
  single place other hnone hsame := by
    by_cases hplace : tree'.slot? place = none
    · exact h'.single place other hplace hsame
    · exact h.single place other hnone ((h'.sameObject_iff hplace).mp hsame)

/-- A new entry where nothing stood is an object of its own. -/
theorem adds_put (h : tree.Closed) (habove : tree.get? above = some .directory)
    (hplace : tree.get? (name :: above) = none) (entry : Entry) :
    tree.Adds (tree.put (name :: above) entry) := by
  have hslots (other : Place) : (tree.put (name :: above) entry).slot? other =
      if other = name :: above then some (entry.slot tree.fresh) else tree.slot? other :=
    h.slot?_put habove (by simp [hplace]) entry other
  have hnone := get?_eq_none_iff.mp hplace
  refine ⟨fun other hsome => ?_, fun new other hnew hsame => ?_⟩
  · rw [hslots, if_neg (by rintro rfl; exact hsome hnone)]
  · obtain ⟨heq, hsome, hdirectory⟩ := hsame
    simp only [hslots] at heq hsome hdirectory
    obtain rfl : new = name :: above := by
      refine Decidable.byContradiction fun hne => hsome ?_
      rw [heq, if_neg hne, hnew]
    refine Decidable.byContradiction fun hne => ?_
    rw [if_pos rfl, if_neg hne] at heq
    rw [if_neg hne] at hdirectory
    have hbound := bound_le_fresh heq
    cases entry with
    | directory => exact hdirectory heq
    | _ => exact absurd hbound (Nat.not_succ_le_self tree.fresh)

/-- Writing to an object adds no slot. -/
theorem adds_rewrite (tree : Tree) (place : Place) (content : Text) :
    tree.Adds (tree.rewrite place content) := .of_slot? (tree.slot?_rewrite place content)

/-- Links are told from their slots. -/
theorem get?_eq_link_iff {target : Path} : tree.get? place = some (.link target) ↔
    ∃ number, tree.slot? place = some (.object number (.link target)) := by
  rw [get?, Option.map_eq_some_iff]
  constructor
  · rintro ⟨_ | ⟨number, _ | target' | device⟩, hslot, hentry⟩
    · exact Entry.noConfusion hentry
    · exact Entry.noConfusion hentry
    · exact ⟨number, by rw [hslot, Entry.link.inj hentry]⟩
    · exact Entry.noConfusion hentry
  · rintro ⟨number, hslot⟩
    exact ⟨_, hslot, rfl⟩

/-- Ways are kept where slots are. -/
theorem Adds.keeps (h : tree.Adds tree') : tree.Keeps tree' where
  directories place hplace := by
    rw [get?_eq_directory_iff] at hplace ⊢
    rw [h.slots place (by simp [hplace]), hplace]
  links place target hplace := by
    obtain ⟨number, hslot⟩ := get?_eq_link_iff.mp hplace
    exact get?_eq_link_iff.mpr ⟨number, by rw [h.slots place (by simp [hslot]), hslot]⟩

end FlutterScaffold.Disk.Tree
