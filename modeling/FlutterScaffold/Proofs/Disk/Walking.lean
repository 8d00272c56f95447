import FlutterScaffold.Proofs.Disk.Closed

/-!
# Walks

A walk that succeeds is a derivation (`Walks`): it stays, goes up or down, follows a link, or ends
at a last name. What a walk ends at stands at its place (`Walks.spec`). It only meets directories
and links on its way, so it leads to the same place in every tree that keeps these
(`Walks.of_keeps`).
-/

namespace FlutterScaffold.Disk

/-- A name that is looked up in a directory. -/
def Fits (name : Text) : Prop := name ≠ Path.dot ∧ name ≠ Path.dotDot ∧ name.length ≤ maxName

/-- Where the names of a link's target are followed from. -/
def startOf (here : Place) (p : Path) : Place := if p.isAbsolute then [] else here

/-- A path is followed from a place that is there. -/
theorem reaches_start {tree : Tree} {here : Place} (hhere : tree.Reaches here) (p : Path) :
    tree.Reaches (startOf here p) := by
  rw [startOf]
  split
  · exact tree.reaches_nil
  · exact hhere

/-- Names lead from a directory to a spot, through at most the given number of links. -/
inductive Walks (tree : Tree) (follow : Bool) : Nat → Place → List Text → Spot → Prop
  | done {links here} : Walks tree follow links here [] ⟨here, some .directory⟩
  | dot {links here rest spot} :
    Walks tree follow links here rest spot → Walks tree follow links here (Path.dot :: rest) spot
  | up {links here rest spot} : Walks tree follow links here.tail rest spot →
    Walks tree follow links here (Path.dotDot :: rest) spot
  | down {links here name rest spot} : Fits name → tree.get? (name :: here) = some .directory →
    Walks tree follow links (name :: here) rest spot →
      Walks tree follow links here (name :: rest) spot
  | link {links here name target rest spot} : Fits name →
    tree.get? (name :: here) = some (.link target) → (rest = [] → follow = true) →
      Walks tree follow links (startOf here target) (steps target ++ rest) spot →
        Walks tree follow (links + 1) here (name :: rest) spot
  | last {links here name entry} : Fits name → tree.get? (name :: here) = entry →
    entry ≠ some .directory → (∀ target, entry = some (.link target) → follow = false) →
      Walks tree follow links here [name] ⟨name :: here, entry⟩

section Runs

variable {tree : Tree} {follow : Bool} {links : Nat} {here : Place} {name : Text}
  {rest names : List Text} {spot : Spot}

/-- The names inside of a place are those that its slot came with. -/
theorem Tree.inside_cons_of_find? {slot : Slot} {below : Listing}
    (h : (tree.inside here).find? name = some (slot, below)) :
    tree.inside (name :: here) = below := by
  rw [← node?_cons] at h
  rw [inside, h]

/-- How a walk goes on from a name depends on what stands there. -/
theorem walk_cons_of_fits (h : Fits name) :
    walk tree follow links here (name :: rest) =
      match tree.get? (name :: here) with
      | none => if rest.isEmpty then .ok ⟨name :: here, none⟩ else .error .noEntry
      | some .directory => walk tree follow links (name :: here) rest
      | some (.link target) =>
        if rest.isEmpty && !follow then .ok ⟨name :: here, some (.link target)⟩
        else
          match links with
          | 0 => .error .tooManyLinks
          | links + 1 =>
            walk tree follow links (startOf here target) (steps target ++ rest)
      | some entry =>
        if rest.isEmpty then .ok ⟨name :: here, some entry⟩ else .error .notDirectory := by
  obtain ⟨hdot, hdots, hlength⟩ := h
  rw [Tree.get?, Tree.slot?, Tree.node?_cons]
  cases links with
  | zero =>
    rw [walk, walkNames, if_neg hdot, if_neg hdots, if_neg (Nat.not_lt.mpr hlength)]
    rcases hfind : (tree.inside here).find? name with _ | ⟨_ | ⟨_, _ | _ | _⟩, below⟩
    case zero.some.directory =>
      dsimp only [Option.map_some, Tree.entryOf]
      rw [walk, Tree.inside_cons_of_find? hfind]
    all_goals rfl
  | succ links =>
    rw [walk, walkNames, if_neg hdot, if_neg hdots, if_neg (Nat.not_lt.mpr hlength)]
    rcases hfind : (tree.inside here).find? name with _ | ⟨_ | ⟨_, _ | _ | _⟩, below⟩
    case succ.some.directory =>
      dsimp only [Option.map_some, Tree.entryOf]
      rw [walk, Tree.inside_cons_of_find? hfind]
    all_goals rfl

/-- A walk without names ends where it is, in a directory. -/
theorem walk_nil : walk tree follow links here [] = .ok ⟨here, some .directory⟩ := by
  cases links <;> rfl

/-- The name of the directory itself leads nowhere else. -/
theorem walk_dot :
    walk tree follow links here (Path.dot :: rest) = walk tree follow links here rest := by
  cases links <;> rfl

/-- The name of the directory above leads up, and from the root to the root. -/
theorem walk_up :
    walk tree follow links here (Path.dotDot :: rest) = walk tree follow links here.tail rest := by
  cases links <;> rfl

/-- A name that is too long ends a walk. -/
theorem walk_of_long (hlength : maxName < name.length) (hdot : name ≠ Path.dot)
    (hdots : name ≠ Path.dotDot) :
    walk tree follow links here (name :: rest) = .error .nameTooLong := by
  cases links <;> rw [walk, walkNames, if_neg hdot, if_neg hdots, if_pos hlength]

/-- A walk that the rules allow is walked. -/
theorem walk_of_walks (h : Walks tree follow links here names spot) :
    walk tree follow links here names = .ok spot := by
  induction h with
  | done => exact walk_nil
  | dot _ ih => rw [walk_dot, ih]
  | up _ ih => rw [walk_up, ih]
  | down hfits hget _ ih =>
    rw [walk_cons_of_fits hfits, hget]
    exact ih
  | link hfits hget hfollow _ ih =>
    rw [walk_cons_of_fits hfits, hget]
    simp only
    rw [if_neg (by simpa using hfollow)]
    exact ih
  | @last links here name entry hfits hget hdirectory hlink =>
    rw [walk_cons_of_fits hfits, hget]
    match entry, hdirectory, hlink with
    | none, _, _ => rfl
    | some .directory, hdirectory, _ => exact absurd rfl hdirectory
    | some (.file _), _, _ => rfl
    | some (.link target), _, hlink => simp [hlink target rfl]
    | some (.device _), _, _ => rfl

/-- A walk that succeeds is a derivation, by induction on the links that are left and, between two
links, on the names. -/
theorem walks_of_walk (h : walk tree follow links here names = .ok spot) :
    Walks tree follow links here names spot := by
  induction links using Nat.strongRecOn generalizing here names with
  | ind links ihLinks =>
  induction names generalizing here with
  | nil =>
    rw [walk_nil] at h
    exact Except.ok.inj h ▸ .done
  | cons name rest ih =>
    by_cases hdot : name = Path.dot
    · subst hdot
      exact .dot (ih (walk_dot ▸ h))
    by_cases hdots : name = Path.dotDot
    · subst hdots
      exact .up (ih (walk_up ▸ h))
    by_cases hlength : maxName < name.length
    · rw [walk_of_long hlength hdot hdots] at h
      simp at h
    have hfits : Fits name := ⟨hdot, hdots, Nat.le_of_not_lt hlength⟩
    rw [walk_cons_of_fits hfits] at h
    split at h
    · rename_i hget
      split at h
      · rename_i hrest
        rw [List.isEmpty_iff.mp hrest]
        exact Except.ok.inj h ▸ .last hfits hget (by simp) (by simp)
      · simp at h
    · rename_i hget
      exact .down hfits hget (ih h)
    · rename_i target hget
      split at h
      · rename_i hstop
        simp only [Bool.and_eq_true, List.isEmpty_iff, Bool.not_eq_true'] at hstop
        rw [hstop.1]
        exact Except.ok.inj h ▸ .last hfits hget (by simp) fun _ _ => hstop.2
      · rename_i hgo
        cases links with
        | zero => simp at h
        | succ links =>
          refine .link hfits hget (fun hrest => ?_) (ihLinks links (by omega) h)
          simpa [hrest] using hgo
    · rename_i entry hnotDirectory hnotLink hget
      split at h
      · rename_i hrest
        rw [List.isEmpty_iff.mp hrest]
        refine Except.ok.inj h ▸ .last hfits hget ?_ fun target heq => ?_
        · exact fun heq => hnotDirectory (Option.some.inj heq)
        · exact (hnotLink target (Option.some.inj heq)).elim
      · simp at h

/-- A walk succeeds exactly by the rules. -/
theorem walk_iff : walk tree follow links here names = .ok spot ↔
    Walks tree follow links here names spot := ⟨walks_of_walk, walk_of_walks⟩

end Runs

section Facts

variable {tree tree' : Tree} {follow : Bool} {links : Nat} {here : Place} {name : Text}
  {rest names : List Text} {spot : Spot}

/-- What a walk ends at stands at its place, in a directory. -/
theorem Walks.spec (h : Walks tree follow links here names spot) (hhere : tree.Reaches here) :
    spot.entry = tree.get? spot.place ∧ tree.Reaches spot.place.tail := by
  induction h with
  | done => exact ⟨(hhere _ (List.suffix_refl _)).symm, hhere.tail⟩
  | dot _ ih => exact ih hhere
  | up _ ih => exact ih hhere.tail
  | down _ hget _ ih => exact ih (hhere.cons hget)
  | link _ _ _ _ ih => exact ih (reaches_start hhere _)
  | last _ hget => exact ⟨hget.symm, hhere⟩

/-- A walk without names ends in a directory. -/
theorem Walks.entry_of_nil (h : Walks tree follow links here [] spot) :
    spot.entry = some .directory := by
  cases h
  rfl

/-- A walk that follows links does not end at one. -/
theorem Walks.not_link (h : Walks tree true links here names spot) (target : Path) :
    spot.entry ≠ some (.link target) := by
  induction h with
  | done => simp
  | dot _ ih => exact ih
  | up _ ih => exact ih
  | down _ _ _ ih => exact ih
  | link _ _ _ _ ih => exact ih
  | last _ _ _ hlink => exact fun heq => absurd (hlink target heq) (by simp)

/-- A last name ends a walk, whatever stands there. -/
theorem walks_last (hfits : Fits name)
    (hlink : ∀ target, tree.get? (name :: here) = some (.link target) → follow = false) :
    Walks tree follow links here [name] ⟨name :: here, tree.get? (name :: here)⟩ := by
  by_cases hget : tree.get? (name :: here) = some .directory
  · rw [hget]
    exact .down hfits hget .done
  · exact .last hfits rfl hget hlink

/-! ## The same walk elsewhere -/

/-- All that a walk can pass on its way in one tree is in the other one too. -/
structure Tree.Keeps (tree tree' : Tree) : Prop where
  directories : ∀ place, tree.get? place = some .directory → tree'.get? place = some .directory
  links : ∀ place target, tree.get? place = some (.link target) →
    tree'.get? place = some (.link target)

/-- A walk ends at the same place in a tree that keeps its ways. -/
theorem Walks.of_keeps (h : Walks tree follow links here names spot) (hkeeps : tree.Keeps tree')
    (hhere : tree.Reaches here)
    (hend : ∀ target, tree'.get? spot.place = some (.link target) → follow = false) :
    Walks tree' follow links here names ⟨spot.place, tree'.get? spot.place⟩ := by
  induction h with
  | done =>
    rw [hkeeps.directories _ (hhere _ (List.suffix_refl _))]
    exact .done
  | dot _ ih => exact .dot (ih hhere hend)
  | up _ ih => exact .up (ih hhere.tail hend)
  | down hfits hget _ ih =>
    exact .down hfits (hkeeps.directories _ hget) (ih (hhere.cons hget) hend)
  | link hfits hget hfollow _ ih =>
    exact .link hfits (hkeeps.links _ _ hget) hfollow (ih (reaches_start hhere _) hend)
  | last hfits => exact walks_last hfits hend

/-- A walk that stops at no link is the one that follows links. -/
theorem Walks.onward (h : Walks tree false links here names spot)
    (hlink : ∀ target, spot.entry ≠ some (.link target)) :
      Walks tree true links here names spot := by
  induction h with
  | done => exact .done
  | dot _ ih => exact .dot (ih hlink)
  | up _ ih => exact .up (ih hlink)
  | down hfits hget _ ih => exact .down hfits hget (ih hlink)
  | link hfits hget _ _ ih => exact .link hfits hget (fun _ => rfl) (ih hlink)
  | last hfits hget hdirectory _ =>
    exact .last hfits hget hdirectory fun target heq => absurd heq (hlink target)

/-- A walk that follows links stops at the link before its end, if there is one. -/
theorem Walks.stop (h : Walks tree true links here names spot) :
    ∃ stop, Walks tree false links here names stop ∧
      (stop = spot ∨ ∃ target fewer, stop.entry = some (.link target) ∧ fewer < links ∧
        Walks tree true fewer (startOf stop.place.tail target) (steps target) spot) := by
  induction h with
  | done => exact ⟨_, .done, Or.inl rfl⟩
  | dot _ ih =>
    obtain ⟨stop, hstop, hmore⟩ := ih
    exact ⟨stop, .dot hstop, hmore⟩
  | up _ ih =>
    obtain ⟨stop, hstop, hmore⟩ := ih
    exact ⟨stop, .up hstop, hmore⟩
  | down hfits hget _ ih =>
    obtain ⟨stop, hstop, hmore⟩ := ih
    exact ⟨stop, .down hfits hget hstop, hmore⟩
  | @link links here name target rest spot hfits hget hfollow hwalk ih =>
    by_cases hrest : rest = []
    · subst hrest
      rw [List.append_nil] at hwalk
      exact ⟨⟨name :: here, some (.link target)⟩, .last hfits hget (by simp) (fun _ _ => rfl),
        Or.inr ⟨target, links, rfl, Nat.lt_succ_self _, hwalk⟩⟩
    · obtain ⟨stop, hstop, hmore⟩ := ih
      refine ⟨stop, .link hfits hget (fun hnil => absurd hnil hrest) hstop, hmore.imp_right ?_⟩
      rintro ⟨next, fewer, hentry, hlt, hnext⟩
      exact ⟨next, fewer, hentry, Nat.lt_succ_of_lt hlt, hnext⟩
  | last hfits hget hdirectory hlink =>
    exact ⟨_, .last hfits hget hdirectory (fun _ _ => rfl), Or.inl rfl⟩

/-- A larger budget of links changes nothing. -/
theorem Walks.mono (h : Walks tree follow links here names spot) {more : Nat}
    (hmore : links ≤ more) :
    Walks tree follow more here names spot := by
  induction h generalizing more with
  | done => exact .done
  | dot _ ih => exact .dot (ih hmore)
  | up _ ih => exact .up (ih hmore)
  | down hfits hget _ ih => exact .down hfits hget (ih hmore)
  | link hfits hget hfollow _ ih =>
    obtain ⟨more, rfl⟩ := Nat.exists_eq_succ_of_ne_zero (Nat.ne_of_gt (Nat.lt_of_lt_of_le
      (Nat.succ_pos _) hmore))
    exact .link hfits hget hfollow (ih (Nat.le_of_succ_le_succ hmore))
  | last hfits hget hdirectory hlink => exact .last hfits hget hdirectory hlink

/-- The same names lead to one spot only. -/
theorem Walks.det (h : Walks tree follow links here names spot) {more : Nat} {other : Spot}
    (h' : Walks tree follow more here names other) : other = spot := by
  have hmost := walk_of_walks (h.mono (Nat.le_max_left links more))
  have hmost' := walk_of_walks (h'.mono (Nat.le_max_right links more))
  exact Except.ok.inj (hmost'.symm.trans hmost)

/-! ## Walks in two parts -/

/-- Names before others lead to a directory. -/
theorem Walks.exists_of_append {before behind : List Text} (hne : behind ≠ [])
    (h : Walks tree follow links here (before ++ behind) spot) :
    ∃ between, Walks tree true links here before ⟨between, some .directory⟩ ∧
      Walks tree follow links between behind spot := by
  generalize hnames : before ++ behind = names at h
  induction h generalizing before with
  | done => exact absurd (List.append_eq_nil_iff.mp hnames).2 hne
  | @dot links here rest spot hwalk ih =>
    rcases List.append_eq_cons_iff.mp hnames with ⟨rfl, rfl⟩ | ⟨before, rfl, hrest⟩
    · exact ⟨here, .done, .dot hwalk⟩
    · obtain ⟨between, hbefore, hbehind⟩ := ih hrest.symm
      exact ⟨between, .dot hbefore, hbehind⟩
  | @up links here rest spot hwalk ih =>
    rcases List.append_eq_cons_iff.mp hnames with ⟨rfl, rfl⟩ | ⟨before, rfl, hrest⟩
    · exact ⟨here, .done, .up hwalk⟩
    · obtain ⟨between, hbefore, hbehind⟩ := ih hrest.symm
      exact ⟨between, .up hbefore, hbehind⟩
  | @down links here name rest spot hfits hget hwalk ih =>
    rcases List.append_eq_cons_iff.mp hnames with ⟨rfl, rfl⟩ | ⟨before, rfl, hrest⟩
    · exact ⟨here, .done, .down hfits hget hwalk⟩
    · obtain ⟨between, hbefore, hbehind⟩ := ih hrest.symm
      exact ⟨between, .down hfits hget hbefore, hbehind⟩
  | @link links here name target rest spot hfits hget hfollow hwalk ih =>
    rcases List.append_eq_cons_iff.mp hnames with ⟨rfl, rfl⟩ | ⟨before, rfl, rfl⟩
    · exact ⟨here, .done, .link hfits hget hfollow hwalk⟩
    · obtain ⟨between, hbefore, hbehind⟩ := @ih (steps target ++ before) (List.append_assoc ..)
      exact ⟨between, .link hfits hget (fun _ => rfl) hbefore, hbehind.mono (Nat.le_succ _)⟩
  | @last links here name entry hfits hget hdirectory hlink =>
    rcases List.append_eq_cons_iff.mp hnames with ⟨rfl, rfl⟩ | ⟨before, rfl, hrest⟩
    · exact ⟨here, .done, .last hfits hget hdirectory hlink⟩
    · exact absurd (List.append_eq_nil_iff.mp hrest.symm).2 hne

/-- One more name can be looked up where others have led. -/
theorem Walks.append_last {above : Place}
    (h : Walks tree true links here names ⟨above, some .directory⟩) (hfits : Fits name)
    (hlink : ∀ target, tree.get? (name :: above) = some (.link target) → follow = false) :
    Walks tree follow links here (names ++ [name])
      ⟨name :: above, tree.get? (name :: above)⟩ := by
  generalize hspot : (⟨above, some .directory⟩ : Spot) = spot at h
  induction h with
  | done =>
    obtain ⟨rfl, -⟩ := Spot.mk.inj hspot
    exact walks_last hfits hlink
  | dot _ ih => exact .dot (ih hspot)
  | up _ ih => exact .up (ih hspot)
  | down hfits' hget _ ih => exact .down hfits' hget (ih hspot)
  | link hfits' hget _ _ ih =>
    refine .link hfits' hget (fun hnil => ?_) ?_
    · simp at hnil
    · have hwalk := ih hspot
      rw [List.append_assoc] at hwalk
      exact hwalk
  | last _ _ hdirectory _ => exact absurd (Spot.mk.inj hspot).2.symm hdirectory

/-- A walk does not pass a link that leads to no directory before its end, so whatever becomes of
that link, the walk ends where it did. -/
theorem Walks.of_spared {place : Place} (h : Walks tree false links here names spot)
    (hdirectories : ∀ other, tree.get? other = some .directory → tree'.get? other = some .directory)
    (hlinks : ∀ other target, other ≠ place → tree.get? other = some (.link target) →
      tree'.get? other = some (.link target))
    (hplace : ∀ target fewer between, tree.get? place = some (.link target) →
      ¬ Walks tree true fewer (startOf place.tail target) (steps target) ⟨between, some .directory⟩)
    (hhere : tree.Reaches here) :
    Walks tree' false links here names ⟨spot.place, tree'.get? spot.place⟩ := by
  induction h with
  | done =>
    rw [hdirectories _ (hhere _ (List.suffix_refl _))]
    exact .done
  | dot _ ih => exact .dot (ih hhere)
  | up _ ih => exact .up (ih hhere.tail)
  | down hfits hget _ ih => exact .down hfits (hdirectories _ hget) (ih (hhere.cons hget))
  | @link links here name target rest spot hfits hget hfollow hwalk ih =>
    have hrest : rest ≠ [] := fun hnil => absurd (hfollow hnil) (by simp)
    have hother : name :: here ≠ place := by
      rintro rfl
      obtain ⟨between, hbefore, -⟩ := hwalk.exists_of_append hrest
      exact hplace target links between hget hbefore
    exact .link hfits (hlinks _ _ hother hget) hfollow (ih (reaches_start hhere _))
  | last hfits => exact walks_last hfits fun _ _ => rfl

/-! ## Walks that only go down -/

/-- Where names lead that each go down. -/
def descend (here : Place) (names : List Text) : Place :=
  (names.filter (· != Path.dot)).reverse ++ here

/-- Going down stays below. -/
theorem suffix_descend (here : Place) (names : List Text) : here <:+ descend here names :=
  List.suffix_append _ _

/-- The name of the directory itself does not go down. -/
theorem descend_dot (here : Place) (names : List Text) :
    descend here (Path.dot :: names) = descend here names := by
  simp [descend]

/-- Any other name goes down by itself. -/
theorem descend_cons {name : Text} (h : name ≠ Path.dot) (here : Place) (names : List Text) :
    descend here (name :: names) = descend (name :: here) names := by
  simp [descend, h]

/-- All that stands in one tree stands in the other one too. -/
def Tree.Grows (tree tree' : Tree) : Prop :=
  ∀ place, tree.get? place ≠ none → tree'.get? place = tree.get? place

/-- A tree may grow in several steps. -/
theorem Tree.Grows.trans {tree'' : Tree} (h : tree.Grows tree') (h' : tree'.Grows tree'') :
    tree.Grows tree'' := by
  intro place hsome
  have hget := h place hsome
  rw [← hget] at hsome
  rw [h' place hsome, hget]

/-- A tree that grows keeps its ways. -/
theorem Tree.Grows.keeps (h : tree.Grows tree') : tree.Keeps tree' where
  directories := fun place hget => (h place (by simp [hget])).trans hget
  links := fun place _ hget => (h place (by simp [hget])).trans hget

/-- Names that only go down and meet no link lead to the place that they spell. If something stood
there before the tree has grown, they led there already. -/
theorem Walks.of_grows (h : Walks tree' follow links here names spot) (hclosed : tree.Closed)
    (hgrows : tree.Grows tree') (hhere : tree'.Reaches here) (hnames : Path.dotDot ∉ names)
    (hlinks : ∀ above target, above <:+ descend here names →
      tree'.get? above ≠ some (.link target)) :
    spot.place = descend here names ∧
      (tree.get? spot.place ≠ none →
        Walks tree follow links here names ⟨spot.place, tree.get? spot.place⟩) := by
  induction h with
  | @done links here =>
    refine ⟨rfl, fun hsome => ?_⟩
    rw [← hgrows here hsome, hhere here (List.suffix_refl here)]
    exact .done
  | dot _ ih =>
    rw [descend_dot] at hlinks ⊢
    exact (ih hhere (List.not_mem_of_not_mem_cons hnames) hlinks).imp_right fun h hsome =>
      .dot (h hsome)
  | up => exact absurd (List.mem_cons_self ..) hnames
  | @down links here name rest spot hfits hget _ ih =>
    rw [descend_cons hfits.1] at hlinks ⊢
    obtain ⟨hplace, hwalk⟩ :=
      ih (hhere.cons hget) (List.not_mem_of_not_mem_cons hnames) hlinks
    refine ⟨hplace, fun hsome => .down hfits ?_ (hwalk hsome)⟩
    rw [← hgrows _ (hclosed.ne_none_of_suffix hsome (hplace ▸ suffix_descend _ _)), hget]
  | @link links here name target rest spot hfits hget =>
    rw [descend_cons hfits.1] at hlinks
    exact absurd hget (hlinks _ target (suffix_descend _ _))
  | @last links here name entry hfits hget hdirectory hlink =>
    refine ⟨(descend_cons hfits.1 here []).symm, fun hsome => walks_last hfits fun target heq => ?_⟩
    refine hlink target ?_
    rw [← hget, hgrows _ hsome, heq]

end Facts

end FlutterScaffold.Disk
